import LatexMarkdown.Proofs.Tabular.Cells
/-!
  Beginning the cells of a table.

  At its beginning a cell may hold words (`begins_words`) or span columns (`begins_spanning`), and
  either way it is read to its end (`begins_cell`).  The first cell of a row comes behind the rules of
  the row (`begins_row`); the command of a spanning cell that comes behind a rule is unknown and kept
  as it is spelled (`leads_literal`).
-/
namespace LatexMarkdown

open Parse (State Context Surround OpenInline OpenTable Faces Meets nestingLimit)
open Parse.State (Leads openCell isCellSpacing)

namespace Tabular

variable {ctx : Context} {m : LineMark} {s : State} {i : OpenInline} {c : Cursor} {f : Fragments}
  {shown rest : Text} {table : OpenTable} {begun : Marker} {rows : List (List Text)}
  {cells : List Text}

/-- Beginning the cell leads to its end, where the table has these rows and cells. -/
def Begins (ctx : Context) (begun : Marker) (s : State) (c : Cursor) (table : OpenTable)
    (rows : List (List Text)) (cells : List Text) (rest : Text) : Prop :=
  ∃ t u, State.beginCell ctx { s with cursor := c } table = .ok t ∧ Leads ctx t u ∧
    AtEnd ctx begun s rows cells rest u

/-- A cell that does not span columns is open at once. -/
theorem beginCell_of_not (ctx : Context) (s : State) (table : OpenTable)
    (h : (skipCellSpacing c).current.isCommand "multicolumn" = false) :
    State.beginCell ctx { s with cursor := c } table
      = .ok (s.gather (openCell { table with cellStart := c.current.start, span := 1 })
          (skipCellSpacing c) {}) := by
  unfold State.beginCell
  exact if_neg (by rw [← skipCellSpacing, h]; simp)

/-! ## Words -/

theorem EndsCell.not_spacing (h : EndsCell rest) (hf : Faces ctx m c rest) :
    isCellSpacing c.current = false := by
  rcases h.kind hf with hk | hk | hk <;>
    simp [isCellSpacing, Token.isSpacing, Token.isBlankText, hk]

/-- A cell of words is read to its end. -/
theorem begins_words (w : Words) (hrest : EndsCell rest) (hkeeps : Keeps begun table rows cells)
    (h : Faces ctx m c (w.text ++ rest)) :
    Begins ctx begun s c table rows (cells ++ [w.text.squeeze]) rest := by
  obtain ⟨blank, t, m', heq, hspace, hfaces, hor⟩ :=
    skip_words w.units hrest.head (fun hf => hrest.not_spacing hf) h
  have hnot : (skipCellSpacing c).current.isCommand "multicolumn" = false := by
    rw [Token.isCommand]
    rcases hor with rfl | ⟨hk, -⟩
    · rcases hrest.kind hfaces with hk | hk | hk <;> rw [hk] <;> rfl
    · rw [hk]
      rfl
  have hunits : ∀ u ∈ t, isWordUnit u = true := fun u hu =>
    w.units u (heq ▸ List.mem_append_right _ hu)
  -- The space that was skipped would not have shown.
  have hsqueeze : w.text.squeeze = ([] ++ t : Text).squeeze := by
    rw [heq, Text.squeeze_append_of_space_left fun u hu => isInlineSpace_of_isWordSpace (hspace u hu),
      List.nil_append]
  obtain ⟨c', f', hlead, hholds⟩ := adds_words (s := s) (openCell_ne_paragraph _) hunits hrest.head
    (skipCellSpacing c) {} [] (holds_empty hfaces)
  refine ⟨_, _, beginCell_of_not ctx s table hnot, hlead, ?_⟩
  rw [hsqueeze]
  exact (hkeeps.begun_cell _ _).atEnd hholds

/-! ## Cells that span columns -/

/-- What stands behind the command of a cell that spans columns. -/
def spanArguments (count : Nat) (w rest : Text) : Text :=
  inBraces (Text.ofNat count) ++ (inBraces "c" ++ (inBraces w ++ rest))

theorem meets_span {count : Nat} {w : Text} (h : Faces ctx m c (printSpan count w ++ rest)) :
    c.current.kind = .command ∧ c.current.text = "multicolumn" ∧
      ∃ m', Faces ctx m' c.advance (spanArguments count w rest) := by
  have hshape : printSpan count w ++ rest
      = 0x5C :: (Text.ofString "multicolumn" ++ spanArguments count w rest) := by
    simp [printSpan, spanArguments]
  have hafter : ∀ u ∈ (spanArguments count w rest).head?,
      CodeUnit.isLetter u = false ∧ u ≠ 0x2A := by
    simp [spanArguments, inBraces]
    decide
  rw [hshape] at h
  have hmeets := h.command (by decide) (by decide) (by decide) (by decide) (by decide) hafter
  exact ⟨hmeets.kind, hmeets.text, _, hmeets.faces⟩

/-- The content inside the text of a cell that spans columns. -/
def insideSpan (i : OpenInline) (opener : Marker) : OpenInline :=
  { i with run := {}, arguments := ⟨.spanning, opener, i.run⟩ :: i.arguments }

@[simp] theorem surround_insideSpan (i : OpenInline) (opener : Marker) :
    (insideSpan i opener).surround = .group opener := rfl

/-- The count and the alignment are read as they are spelled; the text is opened. -/
theorem beginSpanningCell_eq (hd : s.environments.length + 2 ≤ nestingLimit) (table : OpenTable)
    {count : Nat} {w : Text} (h : Faces ctx m c (printSpan count w ++ rest)) :
    ∃ c' m' opener,
      State.beginSpanningCell ctx { s with cursor := c } table
        = .ok (s.gather (insideSpan
            (openCell { table with span := Parse.columnSpan (Text.ofNat count) }) opener) c' {}) ∧
      Faces ctx m' c' (w ++ 0x7D :: rest) := by
  obtain ⟨hkind, htext, m₁, harguments⟩ := meets_span h
  obtain ⟨c₁, m₂, hcount, hfaces₁⟩ := readGroup_plain
    (fun u hu => isPlain_of_isDigit (Text.isDigit_of_mem_ofNat u hu)) harguments c.marker
    (Parse.missingArgument c.marker)
  obtain ⟨c₂, m₃, halign, hfaces₂⟩ := readGroup_plain (t := "c") (by decide) hfaces₁ c.marker
    (Parse.missingArgument c.marker)
  have hshape : inBraces w ++ rest = 0x7B :: (w ++ 0x7D :: rest) := by simp [inBraces]
  rw [hshape] at hfaces₂
  have hbrace := hfaces₂.single .groupOpen rfl
  refine ⟨c₂.advance, _, c₂.marker, ?_, hbrace.faces⟩
  let i := openCell { table with span := Parse.columnSpan (Text.ofNat count) }
  let s' : State := { s with cursor := c₂, inline? := some i }
  have hopen : s'.openArgument i c.marker (Parse.missingArgument c.marker) .spanning
      = .ok (s.gather (insideSpan i c₂.marker) c₂.advance {}) :=
    State.openArgument_of_le (s := s') hbrace.kind hd i _ _ _
  rw [State.beginSpanningCell]
  show (Parse.readGroup ctx.source c.marker (Parse.missingArgument c.marker) c.advance
    >>= fun x => _) = _
  rw [hcount]
  show (Parse.readGroup ctx.source c.marker (Parse.missingArgument c.marker) c₁
    >>= fun x => _) = _
  rw [halign]
  exact hopen

/-- What a cell that spans columns holds when its text is closed. -/
theorem holds_spanning (hf : f.nodes = []) (hfaces : Faces ctx m c rest) :
    Holds ctx c (({} : Fragments).pushAll f.finish) f.chars.squeeze rest := by
  obtain ⟨info, -, hfinish⟩ := finish_of_nodes hf
  rw [hfinish]
  split
  · next hnil =>
    rw [hnil]
    exact holds_empty hfaces
  · exact (holds_empty hfaces).pushText hfaces f.chars.squeeze rfl info.start info.stop

/-- The closing brace closes the text of a cell that spans columns. -/
theorem leads_span_end (table : OpenTable) (opener : Marker) (ctx : Context) (s : State)
    (f : Fragments) (hk : c.current.kind = .groupClose) :
    Leads ctx (s.gather (insideSpan (openCell table) opener) c f)
      (s.gather (openCell table) c.advance (({} : Fragments).pushAll f.finish)) := by
  refine .of_closeInline rfl ?_ rfl
  show (c.current.kind == .groupClose) = true
  exact beq_iff_eq.mpr hk

/-- A cell that spans columns is read to its end. -/
theorem begins_spanning (hd : s.environments.length + 2 ≤ nestingLimit) (before : Space) (count : Nat)
    (w : Words) (after : Space) (hrest : EndsCell rest) (hkeeps : Keeps begun table rows cells)
    (h : Faces ctx m c ((Cell.spanning before count w after).print ++ rest)) :
    Begins ctx begun s c table rows (cells ++ (Cell.spanning before count w after).texts) rest := by
  have hshape : (Cell.spanning before count w after).print ++ rest
      = before.text ++ (printSpan count w.text ++ (after.text ++ rest)) := by
    simp [Cell.print]
  rw [hshape] at h
  -- The space in front is skipped before the command is looked for.
  obtain ⟨m₁, hfaces₁⟩ := skip_space before (isPlain_head?_printSpan count w.text _)
    (fun {_ _} hf => by
      simp [isCellSpacing, Token.isSpacing, Token.isBlankText, (meets_span hf).1]) h
  obtain ⟨hkind, htext, -⟩ := meets_span hfaces₁
  let table₁ : OpenTable := { table with cellStart := c.current.start, span := 1 }
  have hbegin : State.beginCell ctx { s with cursor := c } table
      = State.beginSpanningCell ctx { s with cursor := skipCellSpacing c } table₁ := by
    have hcommand : (skipCellSpacing c).current.isCommand "multicolumn" = true := by
      rw [Token.isCommand, hkind, htext]
      decide
    unfold State.beginCell
    exact if_pos hcommand
  obtain ⟨c₂, m₂, opener, hspan, hfaces₂⟩ := beginSpanningCell_eq hd table₁ hfaces₁
  let table₂ : OpenTable := { table₁ with span := Parse.columnSpan (Text.ofNat count) }
  have hgroup : (insideSpan (openCell table₂) opener).surround ≠ .paragraph := by simp
  obtain ⟨c₃, f₃, hread, hholds₃⟩ := adds_words (s := s) hgroup w.units
    (Lexeme.forall_mem_head?_cons (by decide) _) c₂ {} [] (holds_empty hfaces₂)
  obtain ⟨m₃, hfaces₃⟩ := hholds₃.faces
  have hbrace := hfaces₃.single .groupClose rfl
  have hclose := leads_span_end table₂ opener ctx s f₃ hbrace.kind
  obtain ⟨c₄, f₄, hafter, hholds₄⟩ := adds_words (s := s) (openCell_ne_paragraph table₂)
    after.wordUnits hrest.head c₃.advance _ _ (holds_spanning hholds₃.nodes hbrace.faces)
  -- Squeezing is what the text of the cell comes through twice.
  have hsqueeze : (f₃.chars.squeeze ++ after.text).squeeze = w.text.squeeze := by
    rw [Text.squeeze_append_of_space _ after.isInlineSpace, Text.squeeze_squeeze,
      Text.squeeze_congr hholds₃.chars, List.nil_append]
  have hend : AtEnd ctx begun s rows _ rest (s.gather (openCell table₂) c₄ f₄) :=
    (hkeeps.begun_cell c.current.start (Parse.columnSpan (Text.ofNat count))).atEnd hholds₄
  rw [hsqueeze] at hend
  exact ⟨_, _, hbegin.trans hspan, hread.trans (hclose.trans hafter), hend⟩

/-- A cell is read to its end. -/
theorem begins_cell (hd : s.environments.length + 2 ≤ nestingLimit) (cell : Cell)
    (hrest : EndsCell rest) (hkeeps : Keeps begun table rows cells)
    (h : Faces ctx m c (cell.print ++ rest)) :
    Begins ctx begun s c table rows (cells ++ cell.texts) rest := by
  cases cell with
  | words w => exact begins_words w hrest hkeeps h
  | spanning before count w after => exact begins_spanning hd before count w after hrest hkeeps h

/-! ## The command of a spanning cell behind a rule -/

/-- The state with these diagnostics added, the last one first. -/
def noting (s : State) (ds : List Diagnostic) : State :=
  { s with diagnostics := ds ++ s.diagnostics }

theorem noting_noting (s : State) (ds ds' : List Diagnostic) :
    noting (noting s ds) ds' = noting s (ds' ++ ds) := by
  simp only [noting, List.append_assoc]

/-- The content inside braces that are kept. -/
def insideKept (i : OpenInline) (opener : Marker) : OpenInline :=
  { i with run := { i.run with braces := ⟨opener, true⟩ :: i.run.braces } }

@[simp] theorem surround_insideKept (i : OpenInline) (opener : Marker) :
    (insideKept i opener).surround = .group opener := rfl

/-- A brace behind an unknown command, or behind its braces, is kept as text. -/
theorem openKeptBraces_of_groupOpen (hk : s.cursor.current.kind = .groupOpen)
    (hd : s.environments.length + i.depth + 1 ≤ nestingLimit) :
    s.openKeptBraces i = .ok (s.gather (insideKept i s.cursor.marker) s.cursor.advance
      (i.run.fragments.pushText s.cursor.current.start s.cursor.current.stop "\x7b")) := by
  let s' : State := { s with inline? := some i }
  have hdepth : State.checkDepth s'.depth s.cursor.marker = .ok () := State.checkDepth_of_le hd _
  rw [State.openKeptBraces]
  show (if s.cursor.current.kind = .groupOpen then s'.openBrace i true else pure s') = _
  rw [if_pos hk, State.openBrace]
  show (State.checkDepth s'.depth s.cursor.marker >>= fun _ => _) = _
  rw [hdepth]
  rfl

theorem openKeptBraces_of_not (hk : s.cursor.current.kind ≠ .groupOpen) :
    s.openKeptBraces i = .ok { s with inline? := some i } :=
  if_neg hk

/-- An opening brace is kept as text. -/
theorem opens_kept (hd : s.environments.length + i.depth + 1 ≤ nestingLimit)
    (h : Holds ctx c f shown (0x7B :: rest)) :
    ∃ c' f' opener, State.openKeptBraces { s with cursor := c } (i.withFragments f)
        = .ok (s.gather (insideKept i opener) c' f') ∧ Holds ctx c' f' (shown ++ [0x7B]) rest := by
  obtain ⟨m, hfaces⟩ := h.faces
  have hopening := hfaces.single .groupOpen rfl
  have hopen := openKeptBraces_of_groupOpen (s := { s with cursor := c }) (i := i.withFragments f)
    hopening.kind hd
  exact ⟨_, _, _, hopen, h.pushText hopening.faces [0x7B] rfl _ _⟩

/-- What closes kept braces closes them as text and looks for more. -/
theorem closeInline_insideKept (s : State) (i : OpenInline) (opener : Marker) (c : Cursor)
    (f : Fragments) :
    (s.gather (insideKept i opener) c f).closeInline ctx ((insideKept i opener).withFragments f)
      = State.openKeptBraces { s with cursor := c.advance }
          (i.withFragments (f.pushText c.current.start c.current.stop "\x7d")) := rfl

/-- Words in kept braces are read up to the closing brace, which then looks for more. -/
theorem leads_kept (s : State) (i : OpenInline) (opener : Marker) {t : Text}
    (ht : ∀ u ∈ t, isWordUnit u = true) (h : Holds ctx c f shown (t ++ 0x7D :: rest)) :
    ∃ c' f', Holds ctx c' f' (shown ++ (t ++ [0x7D])) rest ∧
      ∀ u, State.openKeptBraces { s with cursor := c' } (i.withFragments f') = .ok u →
        Leads ctx (s.gather (insideKept i opener) c f) u := by
  have hgroup : (insideKept i opener).surround ≠ .paragraph := by simp
  obtain ⟨c₁, f₁, hread, hholds⟩ := adds_words (s := s) hgroup ht
    (Lexeme.forall_mem_head?_cons (by decide) _) c f shown h
  obtain ⟨m, hfaces⟩ := hholds.faces
  have hclosing := hfaces.single .groupClose rfl
  have hends : (insideKept i opener).surround.endsAt s.inList c₁.current = true := by
    rw [surround_insideKept, Surround.endsAt, hclosing.kind]
    rfl
  have hholds' := hholds.pushText hclosing.faces [0x7D] rfl c₁.current.start c₁.current.stop
  rw [List.append_assoc] at hholds'
  refine ⟨c₁.advance, _, hholds', fun u hopen => hread.trans (.of_closeInline rfl hends ?_)⟩
  rw [closeInline_insideKept]
  exact hopen

/-- Words in kept braces, when other braces come behind these. -/
theorem leads_kept_next (opener : Marker) (hd : s.environments.length + i.depth + 1 ≤ nestingLimit)
    {t : Text} (ht : ∀ u ∈ t, isWordUnit u = true)
    (h : Holds ctx c f shown (t ++ 0x7D :: 0x7B :: rest)) :
    ∃ c' f' opener', Leads ctx (s.gather (insideKept i opener) c f)
        (s.gather (insideKept i opener') c' f') ∧
      Holds ctx c' f' (shown ++ (t ++ [0x7D]) ++ [0x7B]) rest := by
  obtain ⟨c₁, f₁, hholds₁, hclose⟩ := leads_kept s i opener ht h
  obtain ⟨c₂, f₂, opener', hopen, hholds₂⟩ := opens_kept (s := s) hd hholds₁
  exact ⟨c₂, f₂, opener', hclose _ hopen, hholds₂⟩

/-- Words in kept braces, when no other braces come behind. -/
theorem leads_kept_last (opener : Marker) {t : Text} (ht : ∀ u ∈ t, isWordUnit u = true)
    (hrest : ∀ {m c}, Faces ctx m c rest → c.current.kind ≠ .groupOpen)
    (h : Holds ctx c f shown (t ++ 0x7D :: rest)) :
    ∃ c' f', Leads ctx (s.gather (insideKept i opener) c f) (s.gather i c' f') ∧
      Holds ctx c' f' (shown ++ (t ++ [0x7D])) rest := by
  obtain ⟨c₁, f₁, hholds, hclose⟩ := leads_kept s i opener ht h
  obtain ⟨m, hfaces⟩ := hholds.faces
  exact ⟨c₁, f₁, hclose _ (openKeptBraces_of_not (hrest hfaces)), hholds⟩

/-- In an open cell the command of a spanning cell is unknown. -/
theorem takeToken_multicolumn (ctx : Context) (s : State) (f : Fragments) (hi : i.surround = .cell)
    (hk : c.current.kind = .command) (ht : c.current.text = "multicolumn") :
    (s.gather i c f).takeToken ctx (i.withFragments f)
      = State.openKeptBraces
          { noting s [⟨.unknownCommand "multicolumn", c.current.start, c.current.stop⟩] with
            cursor := c.advance }
          (i.withFragments (f.pushText c.current.start c.current.stop
            (0x5C :: Text.ofString "multicolumn"))) := by
  have hkind : (s.gather i c f).cursor.current.kind = .command := hk
  have htext : (s.gather i c f).cursor.current.text = "multicolumn" := ht
  have hcount : (i.withFragments f).droppedCount? "multicolumn" = none := by
    rw [OpenInline.droppedCount?, if_pos (show (i.withFragments f).surround = .cell from hi)]
    decide
  have hheading : headingLevel? "multicolumn" = none := by decide
  have hstyle : InlineStyle.ofCommand? "multicolumn" = none := by decide
  have htake : (s.gather i c f).takeToken ctx (i.withFragments f)
      = (s.gather i c f).takeUnknownCommand (i.withFragments f) := by
    simp only [State.takeToken, Cursor.marker, hkind, State.takeCommand, Marker.text, htext,
      hheading, hcount, hstyle]
    rfl
  rw [htake]
  simp only [State.takeUnknownCommand, htext]
  rfl

/-- In an open cell the command of a spanning cell is kept with its arguments as it is spelled. -/
theorem leads_literal (hi : i.surround = .cell)
    (hd : s.environments.length + i.depth + 1 ≤ nestingLimit) (count : Nat) (w : Words)
    (hrest : ∀ {m c}, Faces ctx m c rest → c.current.kind ≠ .groupOpen)
    (h : Holds ctx c f shown (printSpan count w.text ++ rest)) :
    ∃ d c' f', d.cause = .unknownCommand "multicolumn" ∧
      Leads ctx (s.gather i c f) ((noting s [d]).gather i c' f') ∧
      Holds ctx c' f' (shown ++ printSpan count w.text) rest := by
  obtain ⟨m, hfaces⟩ := h.faces
  obtain ⟨hkind, htext, m₁, hfaces₁⟩ := meets_span hfaces
  let d : Diagnostic := ⟨.unknownCommand "multicolumn", c.current.start, c.current.stop⟩
  have hshape : spanArguments count w.text rest
      = 0x7B :: (Text.ofNat count ++ 0x7D :: 0x7B :: (Text.ofString "c" ++ 0x7D :: 0x7B ::
          (w.text ++ 0x7D :: rest))) := by
    simp [spanArguments, inBraces]
  rw [hshape] at hfaces₁
  have hdigits : ∀ u ∈ Text.ofNat count, isWordUnit u = true := fun u hu => by
    rw [isWordUnit, Text.isDigit_of_mem_ofNat u hu, Bool.or_true, Bool.true_or]
  have hnot : (i.withFragments f).surround.endsAt s.inList c.current = false := by
    rw [show (i.withFragments f).surround = .cell from hi]
    simp [Surround.endsAt, hkind]
  -- The command, and then its three arguments one after the other.
  have hholds₁ := h.pushText hfaces₁ (0x5C :: Text.ofString "multicolumn") rfl c.current.start
    c.current.stop
  obtain ⟨c₂, f₂, opener₂, hopen, hholds₂⟩ := opens_kept (s := noting s [d]) hd hholds₁
  have hunknown : Leads ctx (s.gather i c f) ((noting s [d]).gather (insideKept i opener₂) c₂ f₂) :=
    .of_takeToken rfl hnot ((takeToken_multicolumn ctx s f hi hkind htext).trans hopen)
  obtain ⟨c₃, f₃, opener₃, hlead₃, hholds₃⟩ :=
    leads_kept_next (s := noting s [d]) opener₂ hd hdigits hholds₂
  obtain ⟨c₄, f₄, opener₄, hlead₄, hholds₄⟩ :=
    leads_kept_next (s := noting s [d]) opener₃ hd (t := Text.ofString "c") (by decide) hholds₃
  obtain ⟨c₅, f₅, hlead₅, hholds₅⟩ :=
    leads_kept_last (s := noting s [d]) opener₄ w.units hrest hholds₄
  refine ⟨d, c₅, f₅, rfl, hunknown.trans (hlead₃.trans (hlead₄.trans hlead₅)), ?_⟩
  have hspan : shown ++ (0x5C :: Text.ofString "multicolumn") ++ [0x7B]
      ++ (Text.ofNat count ++ [0x7D]) ++ [0x7B] ++ (Text.ofString "c" ++ [0x7D]) ++ [0x7B]
      ++ (w.text ++ [0x7D]) = shown ++ printSpan count w.text := by
    simp [printSpan, inBraces]
  rwa [hspan] at hholds₅

end Tabular

end LatexMarkdown
