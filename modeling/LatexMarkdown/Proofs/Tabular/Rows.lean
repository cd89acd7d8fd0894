import LatexMarkdown.Proofs.Embedding.Content
import LatexMarkdown.Proofs.Steps.Change
import LatexMarkdown.Proofs.Tabular.Openings
/-!
  Reading the rows of a table.

  The reader goes from one separator to the next: past a cell (`next_cell`), past a row (`next_row`)
  and past the table (`leads_table_end`).  `AtEnd` carries the rows and cells that are finished, so
  the induction over the cells of a row and the one over the rows add their texts up, and a row
  without content is left out where it ends.
-/
namespace LatexMarkdown

open Parse (State Context Surround OpenInline OpenTable Faces Meets nestingLimit)
open Parse.State (Leads openCell isCellSpacing)

namespace Tabular

variable {ctx : Context} {m : LineMark} {s u : State} {c : Cursor} {f : Fragments}
  {shown rest : Text} {table : OpenTable} {begun : Marker} {rows : List (List Text)}
  {cells : List Text}

/-! ## The first cell of a row -/

/-- A cell with space in front of it. -/
def Cell.behind (lead : Space) : Cell → Cell
  | words w => .words ⟨lead.text ++ w.text, fun u hu =>
      (List.mem_append.mp hu).elim (lead.wordUnits u) (w.units u)⟩
  | spanning before count w after => .spanning ⟨lead.text ++ before.text, fun u hu =>
      (List.mem_append.mp hu).elim (lead.units u) (before.units u)⟩ count w after

theorem Cell.print_behind (lead : Space) (cell : Cell) :
    (cell.behind lead).print = lead.text ++ cell.print := by
  cases cell with
  | words w => rfl
  | spanning before count w after => simp [Cell.behind, Cell.print]

theorem Cell.texts_behind (lead : Space) (cell : Cell) : (cell.behind lead).texts = cell.texts := by
  cases cell with
  | words w =>
    rw [Cell.behind, Cell.texts, Cell.texts, Text.squeeze_append_of_space_left lead.isInlineSpace]
  | spanning before count w after => rfl

/-- Words begin with text or a line feed. -/
theorem kind_of_words {t : Text} (ht : ∀ u ∈ t, isWordUnit u = true) (hne : t ≠ [])
    (hrest : ∀ u ∈ rest.head?, CodeUnit.isPlain u = false) (h : Faces ctx m c (t ++ rest)) :
    c.current.kind = .text ∨ c.current.kind = .newLine := by
  have hrun : ∀ {l rest : Text}, l.Unbroken → (∀ u ∈ l, isWordUnit u = true) → l ≠ [] →
      (∀ u ∈ rest.head?, CodeUnit.isPlain u = false) → Faces ctx m c (l ++ rest) →
      c.current.kind = .text := by
    intro l rest hl hunits hl' hrest h
    exact (h.run hl' (fun u hu => isPlain_of_isWordUnit (hunits u hu) fun heq => hl (heq ▸ hu))
      hrest).kind
  induction t using Text.line_induction with
  | last l hl => exact .inl (hrun hl ht hne hrest h)
  | line l t hl _ =>
    rw [List.append_assoc, List.cons_append] at h
    by_cases hl' : l = []
    · subst hl'
      exact .inr h.lineFeed.kind
    · exact .inl (hrun hl (fun u hu => ht u (List.mem_append_left _ hu)) hl'
        (Lexeme.forall_mem_head?_cons (by decide) _) h)

/-- In a cell that is open, words and spanning cells alike add what they are spelled as. -/
theorem leads_first (table : OpenTable) (hd : s.environments.length + 2 ≤ nestingLimit)
    (cell : Cell) (hrest : EndsCell rest) (hspace : ∀ u ∈ shown, CodeUnit.isInlineSpace u = true)
    (h : Holds ctx c f shown (cell.print ++ rest)) :
    ∃ ds c' f' shown', ds.map (·.cause)
        = (if cell.isSpanning then [.unknownCommand "multicolumn"] else []) ∧
      Leads ctx (s.gather (openCell table) c f) ((noting s ds).gather (openCell table) c' f') ∧
      Holds ctx c' f' shown' rest ∧ shown'.squeeze = cell.literalText := by
  cases cell with
  | words w =>
    obtain ⟨c', f', hlead, hholds⟩ := adds_words (s := s) (openCell_ne_paragraph table) w.units
      hrest.head c f shown h
    exact ⟨[], c', f', _, rfl, hlead, hholds, Text.squeeze_append_of_space_left hspace w.text⟩
  | spanning before count w after =>
    have hshape : (Cell.spanning before count w after).print ++ rest
        = before.text ++ (printSpan count w.text ++ (after.text ++ rest)) := by
      simp [Cell.print]
    rw [hshape] at h
    have hnot : ∀ {m c}, Faces ctx m c (after.text ++ rest) → c.current.kind ≠ .groupOpen := by
      intro m c hf
      by_cases hne : after.text = []
      · rw [hne] at hf
        rcases hrest.kind hf with hk | hk | hk <;> simp [hk]
      · rcases kind_of_words after.wordUnits hne hrest.head hf with hk | hk <;> simp [hk]
    obtain ⟨c₁, f₁, hlead₁, hholds₁⟩ := adds_words (s := s) (openCell_ne_paragraph table)
      before.wordUnits (isPlain_head?_printSpan count w.text _) c f shown h
    obtain ⟨d, c₂, f₂, hcause, hlead₂, hholds₂⟩ := leads_literal (i := openCell table) rfl hd count w
      hnot hholds₁
    obtain ⟨c₃, f₃, hlead₃, hholds₃⟩ := adds_words (s := noting s [d]) (openCell_ne_paragraph table)
      after.wordUnits hrest.head c₂ f₂ _ hholds₂
    refine ⟨[d], c₃, f₃, _, ?_, hlead₁.trans (hlead₂.trans hlead₃), hholds₃, ?_⟩
    · rw [List.map_singleton, hcause]
      rfl
    · have hbefore : ∀ u ∈ shown ++ before.text, CodeUnit.isInlineSpace u = true := fun u hu =>
        (List.mem_append.mp hu).elim (hspace u) (before.isInlineSpace u)
      exact (Text.squeeze_append_of_space _ after.isInlineSpace).trans
        (Text.squeeze_append_of_space_left hbefore _)

/-- The first cell of a row is read to its end, behind the rules of the row. -/
theorem begins_first (hb : 0x5B ∉ ctx.source.toList) (hd : s.environments.length + 2 ≤ nestingLimit)
    (r : Row) (hrest : EndsCell rest) (hkeeps : Keeps begun table rows [])
    (h : Faces ctx m c (r.lead.text ++ (r.rules.flatMap Rule.print ++ (r.first.print ++ rest)))) :
    ∃ ds, ds.map (·.cause) = r.reports ∧ ∃ t u,
      State.beginCell ctx { s with cursor := c } table = .ok t ∧ Leads ctx t u ∧
      AtEnd ctx begun (noting s ds) rows
        (if r.hidesSpan then [r.first.literalText] else r.first.texts) rest u := by
  cases hrules : r.rules with
  | nil =>
    have hhides : r.hidesSpan = false := by simp [Row.hidesSpan, hrules]
    rw [hrules, List.flatMap_nil, List.nil_append, ← List.append_assoc,
      ← Cell.print_behind] at h
    have hbegins := begins_cell hd (r.first.behind r.lead) hrest hkeeps h
    rw [Cell.texts_behind, List.nil_append] at hbegins
    rw [Row.reports, hhides]
    exact ⟨[], rfl, hbegins⟩
  | cons rule more =>
    have hhides : r.hidesSpan = r.first.isSpanning := by simp [Row.hidesSpan, hrules]
    rw [hrules, List.flatMap_cons, List.append_assoc] at h
    obtain ⟨m₁, hfaces₁⟩ := skip_space r.lead
      (rule.isPlain_head?_print _)
      (fun {_ _} hf => by
        simp [isCellSpacing, Token.isSpacing, Token.isBlankText, (rule.meets hf).kind]) h
    -- The rule is no spanning cell, so the cell is open from here on.
    have hmeets := rule.meets hfaces₁
    have hnot : (skipCellSpacing c).current.isCommand "multicolumn" = false := by
      rw [Token.isCommand, hmeets.text, beq_eq_false_iff_ne.mpr rule.command_spec.2.2.2.2.2,
        Bool.and_false]
    let table' : OpenTable := { table with cellStart := c.current.start, span := 1 }
    have hopened := holds_empty hfaces₁
    rw [← List.append_assoc, ← List.flatMap_cons] at hopened
    obtain ⟨c₂, f₂, hlead₂, hholds₂⟩ := adds_rules (s := s) (i := openCell table') hb rfl
      (rule :: more) (r.first.print ++ rest) _ _ _ hopened
    have hfeeds : ∀ u ∈ [] ++ (rule :: more).map fun _ => (0x0A : CodeUnit),
        CodeUnit.isInlineSpace u = true := by
      intro u hu
      obtain ⟨-, -, rfl⟩ := List.mem_map.mp hu
      decide
    obtain ⟨ds, c₃, f₃, shown, hcauses, hlead₃, hholds₃, hshown⟩ :=
      leads_first table' hd r.first hrest hfeeds hholds₂
    have hend : AtEnd ctx begun (noting s ds) rows [shown.squeeze] rest
        ((noting s ds).gather (openCell table') c₃ f₃) :=
      (hkeeps.begun_cell c.current.start 1).atEnd hholds₃
    have htexts : (if r.hidesSpan then [r.first.literalText] else r.first.texts)
        = [r.first.literalText] := by
      rw [hhides]
      cases r.first <;> rfl
    refine ⟨ds, ?_, _, _, beginCell_of_not ctx s table hnot, hlead₂.trans hlead₃, ?_⟩
    · rw [hcauses, Row.reports, hhides]
    · rwa [htexts, ← hshown]

/-! ## From separator to separator -/

theorem endsCell_printMore (cells : List Cell) (hrest : EndsCell rest) :
    EndsCell (printMore cells ++ rest) := by
  cases cells with
  | nil => exact hrest
  | cons cell more => exact .cell _

theorem endsCell_printRows (rows : List Row) (hrest : EndsCell rest) :
    EndsCell (printRows rows ++ rest) := by
  cases rows with
  | nil => exact hrest
  | cons r more => exact .row _

/-- What ends a cell closes it. -/
theorem leads_close (hrest : EndsCell rest) (hf : Faces ctx m c rest) {t : State}
    (h : (s.gather (openCell table) c f).closeCell ctx table f = .ok t) :
    Leads ctx (s.gather (openCell table) c f) t := by
  refine .of_closeInline rfl ?_ h
  show Surround.endsAt s.inList c.current .cell = true
  rcases hrest.kind hf with hk | hk | hk <;> simp [Surround.endsAt, hk]

/-- From one cell to the end of the next. -/
theorem next_cell (hd : s.environments.length + 2 ≤ nestingLimit) (cell : Cell)
    (hrest : EndsCell rest) (h : AtEnd ctx begun s rows cells (0x26 :: (cell.print ++ rest)) u) :
    ∃ v, Leads ctx u v ∧ AtEnd ctx begun s rows (cells ++ cell.texts) rest v := by
  obtain ⟨table, c, f, rfl, ⟨m, hf⟩, hkeeps⟩ := h
  have hmeets := hf.single .alignmentTab rfl
  obtain ⟨t, v, hbegin, hlead, hend⟩ := begins_cell (s := s.gather (openCell table) c f) hd cell hrest
    (hkeeps _) hmeets.faces
  have hclose : (s.gather (openCell table) c f).closeCell ctx table f = .ok t := by
    have hkind : (s.gather (openCell table) c f).cursor.current.kind = .alignmentTab := hmeets.kind
    simp only [State.closeCell, hkind]
    exact hbegin
  exact ⟨v, (leads_close (.cell _) hf hclose).trans hlead, hend⟩

/-- To the end of the last cell of a row. -/
theorem more_cells (hd : s.environments.length + 2 ≤ nestingLimit) (more : List Cell)
    (hrest : EndsCell rest) (h : AtEnd ctx begun s rows cells (printMore more ++ rest) u) :
    ∃ v, Leads ctx u v ∧ AtEnd ctx begun s rows (cells ++ more.flatMap Cell.texts) rest v := by
  induction more generalizing cells u with
  | nil =>
    rw [List.flatMap_nil, List.append_nil]
    exact ⟨u, .refl u, h⟩
  | cons cell more ih =>
    have hshape : printMore (cell :: more) ++ rest
        = 0x26 :: (cell.print ++ (printMore more ++ rest)) := by
      simp [printMore]
    rw [hshape] at h
    obtain ⟨v, hlead, hend⟩ := next_cell hd cell (endsCell_printMore more hrest) h
    obtain ⟨w, hlead', hend'⟩ := ih hend
    rw [List.append_assoc] at hend'
    exact ⟨w, hlead.trans hlead', hend'⟩

/-- A row is read to the end of its last cell. -/
theorem begins_row (hb : 0x5B ∉ ctx.source.toList) (hd : s.environments.length + 2 ≤ nestingLimit)
    (r : Row) (hrest : EndsCell rest) (hkeeps : Keeps begun table rows cells)
    (h : Faces ctx m c (r.print ++ rest)) :
    ∃ ds, ds.map (·.cause) = r.reports ∧ ∃ t u,
      State.beginRow ctx { s with cursor := c } table = .ok t ∧ Leads ctx t u ∧
      AtEnd ctx begun (noting s ds) rows r.texts rest u := by
  have hshape : r.print ++ rest = r.lead.text ++ (r.rules.flatMap Rule.print
      ++ (r.first.print ++ (printMore r.more ++ rest))) := by
    simp [Row.print]
  rw [hshape] at h
  have hempty : Keeps begun { table with rowStart := c.current.start, cells := [] } rows [] :=
    ⟨hkeeps.marker_eq, hkeeps.rows_eq, rfl⟩
  obtain ⟨ds, hcauses, t, u, hbegin, hlead, hend⟩ :=
    begins_first hb hd r (endsCell_printMore r.more hrest) hempty h
  obtain ⟨v, hlead', hend'⟩ := more_cells (s := noting s ds) hd r.more hrest hend
  exact ⟨ds, hcauses, t, v, hbegin, hlead.trans hlead', hend'⟩

/-- From one row to the end of the next. -/
theorem next_row (hb : 0x5B ∉ ctx.source.toList) (hd : s.environments.length + 2 ≤ nestingLimit)
    (r : Row) (hrest : EndsCell rest)
    (h : AtEnd ctx begun s rows cells (0x5C :: 0x5C :: (r.print ++ rest)) u) :
    ∃ ds v, ds.map (·.cause) = r.reports ∧ Leads ctx u v ∧
      AtEnd ctx begun (noting s ds) (rows ++ [cells].filter isFilled) r.texts rest v := by
  obtain ⟨table, c, f, rfl, ⟨m, hf⟩, hkeeps⟩ := h
  have hmeets := hf.lineBreak
  have hskip : (if c.advance.current.kind = .bracketOpen then Parse.skipOptionalArgument c.advance
      else c.advance) = c.advance := by
    rw [Parse.skipOptionalArgument, hmeets.faces.startArgument? hb, ite_self]
  obtain ⟨ds, hcauses, t, v, hbegin, hlead, hend⟩ := begins_row
    (s := s.gather (openCell table) c f) hb hd r hrest ((hkeeps _).finishRow _) hmeets.faces
  have hclose : (s.gather (openCell table) c f).closeCell ctx table f = .ok t := by
    have hkind : (s.gather (openCell table) c f).cursor.current.kind = .lineBreak := hmeets.kind
    simp only [State.closeCell, hkind, State.nextRow]
    show State.beginRow ctx { s.gather (openCell table) c f with
      cursor := if c.advance.current.kind = .bracketOpen then Parse.skipOptionalArgument c.advance
        else c.advance } _ = _
    rw [hskip]
    exact hbegin
  exact ⟨ds, v, hcauses, (leads_close (.row _) hf hclose).trans hlead, hend⟩

/-- To the end of the last row of a table. -/
theorem more_rows (hb : 0x5B ∉ ctx.source.toList) (hd : s.environments.length + 2 ≤ nestingLimit)
    (more : List Row) (hrest : EndsCell rest)
    (h : AtEnd ctx begun s rows cells (printRows more ++ rest) u) :
    ∃ ds v rows' cells', ds.reverse.map (·.cause) = more.flatMap Row.reports ∧ Leads ctx u v ∧
      AtEnd ctx begun (noting s ds) rows' cells' rest v ∧
      rows' ++ [cells'].filter isFilled
        = rows ++ (cells :: more.map Row.texts).filter isFilled := by
  induction more generalizing s rows cells u with
  | nil => exact ⟨[], u, rows, cells, rfl, .refl u, h, rfl⟩
  | cons r more ih =>
    have hshape : printRows (r :: more) ++ rest
        = 0x5C :: 0x5C :: (r.print ++ (printRows more ++ rest)) := by
      simp [printRows]
    rw [hshape] at h
    obtain ⟨ds, v, hcauses, hlead, hend⟩ := next_row hb hd r (endsCell_printRows more hrest) h
    obtain ⟨ds', w, rows', cells', hcauses', hlead', hend', hrows⟩ :=
      ih (s := noting s ds) hd hend
    have hreports : ds.reverse.map (·.cause) = r.reports := by
      rw [List.map_reverse, hcauses, r.reverse_reports]
    rw [noting_noting] at hend'
    refine ⟨ds' ++ ds, w, rows', cells', ?_, hlead.trans hlead', hend', ?_⟩
    · rw [List.reverse_append, List.map_append, hreports, hcauses', List.flatMap_cons]
    · have hsplit : ∀ l : List (List Text), (cells :: l).filter isFilled
          = [cells].filter isFilled ++ l.filter isFilled := fun l =>
        List.filter_append [cells] l
      rw [hrows, List.map_cons, hsplit (r.texts :: more.map Row.texts), List.append_assoc]

end Tabular

end LatexMarkdown
