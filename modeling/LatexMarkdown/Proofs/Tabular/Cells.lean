import LatexMarkdown.Proofs.Tabular.Reading
/-!
  Reading the cells of a table.

  A cell is read from where its source begins to the separator behind it (`begins_cell`).  There the
  table has, with that cell finished, the rows and cells that `Keeps` tells of.  Behind a rule the
  cell is open already, so what would begin a spanning cell is read as inline content
  (`leads_literal`).
-/
namespace LatexMarkdown

open Parse (State Context Surround OpenInline OpenArgument OpenTable Faces Meets Failure nestingLimit)
open Parse.State (Leads openCell isCellSpacing)

namespace Tabular

variable {ctx : Context} {m : LineMark} {s : State} {i : OpenInline} {c : Cursor} {f : Fragments}
  {shown rest : Text} {table : OpenTable} {begun : Marker} {rows : List (List Text)}
  {cells : List Text}

/-! ## What the cells of a table come to -/

/-- Text that was gathered is closed as one text without space at its ends. -/
theorem finish_of_nodes (h : f.nodes = []) :
    ∃ info : NodeInfo, info.flags = {} ∧
      f.finish = if f.chars.squeeze = [] then [] else [.text info f.chars.squeeze] := by
  have hlist := f.toList_eq
  rw [h, List.reverse_nil, List.nil_append] at hlist
  cases hp : f.pending? with
  | none =>
    rw [hp] at hlist
    have hchars : f.chars = [] := by
      rw [Fragments.chars, hlist]
      rfl
    refine ⟨.span 0 0, rfl, ?_⟩
    rw [Fragments.finish, hlist, hchars]
    rfl
  | some t =>
    rw [hp] at hlist
    have hlist' : f.toList = [.text (.span t.start t.stop) t.pieces.reverse.flatten] := hlist
    have hchars : f.chars = t.pieces.reverse.flatten := by
      rw [Fragments.chars, hlist', Inline.plainTextOf, Inline.plainTextOf, Inline.plainText,
        List.append_nil]
    refine ⟨.span t.start t.stop, rfl, ?_⟩
    rw [Fragments.finish, hlist', Inline.normalize_single, hchars]
    rfl

/-- The table began with the marker; its finished rows and the finished cells of its row have these
texts. -/
structure Keeps (begun : Marker) (table : OpenTable) (rows : List (List Text)) (cells : List Text) :
    Prop where
  marker_eq : table.marker = begun
  rows_eq : table.rows.reverse.map (TableRow.mapOffsets fun _ => ()) = rows.map rowOf
  cells_eq : table.cells.reverse.map (TableCell.mapOffsets fun _ => ()) = cells.map cellOf

/-- Beginning a cell changes nothing that is finished. -/
theorem Keeps.begun_cell (h : Keeps begun table rows cells) (start span : Nat) :
    Keeps begun { table with cellStart := start, span } rows cells :=
  ⟨h.marker_eq, h.rows_eq, h.cells_eq⟩

/-- Finishing a cell adds its text, and the empty cells that it spans. -/
theorem Keeps.finishCell (h : Keeps begun table rows cells) (hf : f.nodes = []) (s : State) :
    Keeps begun (s.finishCell table f) rows
      (cells ++ f.chars.squeeze :: List.replicate (table.span - 1) []) := by
  obtain ⟨info, hflags, hfinish⟩ := finish_of_nodes hf
  have hcell : ∀ span : NodeInfo, span.flags = {} →
      TableCell.mapOffsets (fun _ => ()) ⟨span, f.finish⟩ = cellOf f.chars.squeeze := by
    intro span hspan
    rw [TableCell.mapOffsets, cellOf, hfinish, NodeInfo.mapOffsets, hspan]
    split
    · rfl
    · rw [Inline.mapAllOffsets, Inline.mapOffsets, Inline.mapAllOffsets, NodeInfo.mapOffsets, hflags]
      rfl
  refine ⟨h.marker_eq, h.rows_eq, ?_⟩
  simp only [State.finishCell, List.reverse_append, List.reverse_replicate, List.reverse_cons,
    List.map_append, List.append_assoc, h.cells_eq, List.map_cons, List.map_replicate]
  congr 1
  rw [List.map_nil, hcell _ rfl, List.singleton_append]
  rfl

/-- Finishing a row adds its texts, unless there is nothing in it. -/
theorem Keeps.finishRow (h : Keeps begun table rows cells) (s : State) :
    Keeps begun (s.finishRow table) (rows ++ [cells].filter isFilled) cells := by
  have hany : table.cells.reverse.any (!·.children.isEmpty) = isFilled cells := by
    have hmap : (table.cells.reverse.map (TableCell.mapOffsets fun _ => ())).any
        (!·.children.isEmpty) = (cells.map cellOf).any (!·.children.isEmpty) := by
      rw [h.cells_eq]
    rw [List.any_map, List.any_map] at hmap
    have hleft : (fun cell : TableCell => !cell.children.isEmpty)
        = (fun cell : TableCell Unit => !cell.children.isEmpty)
          ∘ TableCell.mapOffsets fun _ => () := by
      funext cell
      simp [TableCell.mapOffsets, Inline.mapAllOffsets_eq_map]
    have hright : (fun t : Text => decide (t ≠ []))
        = (fun cell : TableCell Unit => !cell.children.isEmpty) ∘ cellOf := by
      funext t
      by_cases ht : t = [] <;> simp [cellOf, ht]
    rw [isFilled, hleft, hright, hmap]
  simp only [State.finishRow, hany]
  split
  · next hfilled =>
    rw [List.filter_cons_of_pos hfilled, List.filter_nil]
    refine ⟨h.marker_eq, ?_, h.cells_eq⟩
    rw [List.reverse_cons, List.map_append, List.map_append, h.rows_eq, List.map_singleton,
      List.map_singleton, TableRow.mapOffsets, h.cells_eq]
    rfl
  · next hnot =>
    rw [List.filter_cons_of_neg hnot, List.filter_nil, List.append_nil]
    exact h

/-! ## Where a cell ends -/

/-- What may stand behind a cell: the next cell, the next row or the end of the table. -/
inductive EndsCell : Text → Prop
  | cell (tail : Text) : EndsCell (0x26 :: tail)
  | row (tail : Text) : EndsCell (0x5C :: 0x5C :: tail)
  | table (tail : Text) : EndsCell (Lexeme.spellMarker true "tabular" ++ tail)

theorem EndsCell.head (h : EndsCell rest) : ∀ u ∈ rest.head?, CodeUnit.isPlain u = false := by
  cases h <;> simp [Lexeme.spellMarker] <;> decide

/-- The marker at the end of a table. -/
theorem meets_end (h : Faces ctx m c (Lexeme.spellMarker true "tabular" ++ rest)) :
    c.current.kind = .envEnd ∧ c.current.text = "tabular" ∧ ∃ m', Faces ctx m' c.advance rest := by
  have hmeets := Faces.marker true h (by decide) (by decide) (by decide)
  exact ⟨hmeets.kind, hmeets.text, _, hmeets.faces⟩

theorem EndsCell.kind (h : EndsCell rest) (hf : Faces ctx m c rest) :
    c.current.kind = .alignmentTab ∨ c.current.kind = .lineBreak ∨ c.current.kind = .envEnd := by
  cases h with
  | cell tail => exact .inl (hf.single .alignmentTab rfl).kind
  | row tail => exact .inr (.inl hf.lineBreak.kind)
  | table tail => exact .inr (.inr (meets_end hf).1)

@[simp] theorem surround_openCell (table : OpenTable) : (openCell table).surround = .cell := rfl

theorem openCell_ne_paragraph (table : OpenTable) : (openCell table).surround ≠ .paragraph := by
  simp

/-- A cell that is still open stands before what ends it; once it is finished, whatever the state,
the table has these rows and cells. -/
def AtEnd (ctx : Context) (begun : Marker) (s : State) (rows : List (List Text)) (cells : List Text)
    (rest : Text) (u : State) : Prop :=
  ∃ table c f, u = s.gather (openCell table) c f ∧ (∃ m, Faces ctx m c rest) ∧
    ∀ s' : State, Keeps begun (s'.finishCell table f) rows cells

theorem Keeps.atEnd (h : Keeps begun table rows cells) (hf : Holds ctx c f shown rest) :
    AtEnd ctx begun s rows (cells ++ shown.squeeze :: List.replicate (table.span - 1) []) rest
      (s.gather (openCell table) c f) := by
  refine ⟨table, c, f, rfl, hf.faces, fun s' => ?_⟩
  rw [← Text.squeeze_congr hf.chars]
  exact h.finishCell hf.nodes s'

/-! ## Space before a cell -/

/-- Past what may stand before the content of a cell. -/
def skipCellSpacing (c : Cursor) : Cursor := c.advanceBy (c.countWhile isCellSpacing)

theorem isSourceSpace_of_isWordSpace {u : CodeUnit} (h : isWordSpace u = true) :
    u.isSourceSpace = true := by
  simp only [isWordSpace, CodeUnit.isTabSpace, Bool.or_eq_true, beq_iff_eq] at h
  rcases h with (rfl | rfl) | rfl <;> decide

theorem isInlineSpace_of_isWordSpace {u : CodeUnit} (h : isWordSpace u = true) :
    u.isInlineSpace = true := by
  simp only [isWordSpace, CodeUnit.isTabSpace, Bool.or_eq_true, beq_iff_eq] at h
  rcases h with (rfl | rfl) | rfl <;> decide

theorem Space.isInlineSpace (s : Space) : ∀ u ∈ s.text, CodeUnit.isInlineSpace u = true :=
  fun u hu => isInlineSpace_of_isWordSpace (s.units u hu)

theorem isWordSpace_of_isSourceSpace {u : CodeUnit} (h : u.isSourceSpace = true)
    (hw : isWordUnit u = true) : isWordSpace u = true := by
  by_contra hs
  rw [Bool.not_eq_true] at hs
  have halnum : (u.isLetter || u.isDigit) = true := by simpa [isWordUnit, hs] using hw
  have hnot := CodeUnit.isSourceSpace_eq_false (p := fun u => u.isLetter || u.isDigit) halnum
  rw [h] at hnot
  cases hnot

/-- A line is skipped as a whole, or not at all. -/
theorem skip_line {l : Text} (hl : l.Unbroken) (hunits : ∀ u ∈ l, isWordUnit u = true)
    (hrest : ∀ u ∈ rest.head?, CodeUnit.isPlain u = false) (h : Faces ctx m c (l ++ rest)) :
    ((∀ u ∈ l, isWordSpace u = true) ∧
        ∃ c' m', skipCellSpacing c = skipCellSpacing c' ∧ Faces ctx m' c' rest) ∨
      (skipCellSpacing c = c ∧ c.current.kind = .text ∧ ∃ u ∈ l, isWordSpace u = false) := by
  by_cases hne : l = []
  · subst hne
    exact .inl ⟨by simp, c, m, rfl, h⟩
  have hplain : ∀ u ∈ l, CodeUnit.isPlain u = true := fun u hu =>
    isPlain_of_isWordUnit (hunits u hu) fun heq => hl (heq ▸ hu)
  have hmeets := h.run hne hplain hrest
  have hspacing : isCellSpacing c.current = l.isBlank := by
    rw [isCellSpacing, Token.isSpacing, Token.isBlankText, hmeets.kind, hmeets.text]
    cases l.isBlank <;> rfl
  cases hblank : l.isBlank with
  | true =>
    rw [hblank] at hspacing
    refine .inl ⟨fun u hu => ?_, c.advance, _, ?_, hmeets.faces⟩
    · exact isWordSpace_of_isSourceSpace (List.all_eq_true.mp hblank u hu) (hunits u hu)
    · exact Cursor.skipWhile_of_pos hmeets.ahead hspacing (by simp [hmeets.kind])
  | false =>
    rw [hblank] at hspacing
    obtain ⟨u, hu, hnot⟩ := List.all_eq_false.mp hblank
    refine .inr ⟨Cursor.skipWhile_of_neg hspacing, hmeets.kind, u, hu, ?_⟩
    rw [← Bool.not_eq_true]
    exact fun hs => hnot (isSourceSpace_of_isWordSpace hs)

/-- Space before words is skipped line by line; the rest begins with a token that is none. -/
theorem skip_words {t : Text} (ht : ∀ u ∈ t, isWordUnit u = true)
    (hrest : ∀ u ∈ rest.head?, CodeUnit.isPlain u = false)
    (hstop : ∀ {m c}, Faces ctx m c rest → isCellSpacing c.current = false)
    (h : Faces ctx m c (t ++ rest)) :
    ∃ blank t' m', t = blank ++ t' ∧ (∀ u ∈ blank, isWordSpace u = true) ∧
      Faces ctx m' (skipCellSpacing c) (t' ++ rest) ∧
      (t' = [] ∨ (skipCellSpacing c).current.kind = .text ∧ ∃ u ∈ t', isWordSpace u = false) := by
  induction t using Text.line_induction generalizing m c with
  | last l hl =>
    rcases skip_line hl ht hrest h with ⟨hblank, c', m', heq, hfaces⟩ | ⟨heq, hkind, hex⟩
    · refine ⟨l, [], m', (List.append_nil l).symm, hblank, ?_, .inl rfl⟩
      rw [heq, skipCellSpacing, Cursor.skipWhile_of_neg (hstop hfaces)]
      exact hfaces
    · refine ⟨[], l, m, rfl, by simp, ?_, .inr ⟨?_, hex⟩⟩
      · rwa [heq]
      · rwa [heq]
  | line l t hl ih =>
    have hline : ∀ u ∈ l, isWordUnit u = true := fun u hu => ht u (List.mem_append_left _ hu)
    rw [List.append_assoc, List.cons_append] at h
    rcases skip_line hl hline (Lexeme.forall_mem_head?_cons (by decide) _) h with
      ⟨hblank, c', m', heq, hfaces⟩ | ⟨heq, hkind, u, hu, hnot⟩
    · -- The line feed is skipped as well.
      have hfeed := hfaces.lineFeed
      have hspacing : isCellSpacing c'.current = true := by
        simp [isCellSpacing, Token.isSpacing, hfeed.kind]
      have hskip : skipCellSpacing c' = skipCellSpacing c'.advance :=
        Cursor.skipWhile_of_pos hfeed.ahead hspacing (by simp [hfeed.kind])
      obtain ⟨blank, t', m'', rfl, hspace, hfaces', hor⟩ :=
        ih (fun u hu => ht u (List.mem_append_right _ (List.mem_cons_of_mem _ hu))) hfeed.faces
      rw [heq, hskip]
      refine ⟨l ++ 0x0A :: blank, t', m'', by simp, fun u hu => ?_, hfaces', hor⟩
      rcases List.mem_append.mp hu with hu | hu
      · exact hblank u hu
      · rcases List.mem_cons.mp hu with rfl | hu
        · decide
        · exact hspace u hu
    · refine ⟨[], l ++ 0x0A :: t, m, rfl, by simp, ?_, .inr ⟨?_, u, ?_, hnot⟩⟩
      · rwa [heq, List.append_assoc, List.cons_append]
      · rwa [heq]
      · exact List.mem_append_left _ hu

/-- Nothing but space is skipped to its end. -/
theorem skip_space (space : Space) (hrest : ∀ u ∈ rest.head?, CodeUnit.isPlain u = false)
    (hstop : ∀ {m c}, Faces ctx m c rest → isCellSpacing c.current = false)
    (h : Faces ctx m c (space.text ++ rest)) : ∃ m', Faces ctx m' (skipCellSpacing c) rest := by
  obtain ⟨blank, t', m', heq, -, hfaces, hor⟩ := skip_words space.wordUnits hrest hstop h
  rcases hor with rfl | ⟨-, u, hu, hnot⟩
  · exact ⟨m', hfaces⟩
  · have hmem : u ∈ space.text := heq ▸ List.mem_append_right _ hu
    rw [space.units u hmem] at hnot
    cases hnot

end Tabular

end LatexMarkdown
