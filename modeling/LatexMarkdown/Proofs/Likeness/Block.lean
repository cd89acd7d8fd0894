import LatexMarkdown.Proofs.Likeness.Inline
import LatexMarkdown.Proofs.Steps.Block
/-!
  Blocks read alike.

  One lemma for everything that opens, closes or reads a block, up to the three kinds of step:
  `agree_closeInline` at a token that ends inline content, `agree_beginBlock` and
  `agree_endEnvironment` between blocks.  Each is about states that are alike, at the same token.
-/
namespace LatexMarkdown.Parse.Likeness

variable {R : Likeness} {s s' : State} {c c' : Cursor} {b : Bool}

/-! ## Lists -/

theorem Alike.finishItem (h : R.Alike s s') (e e' : OpenEnvironment) (l l' : OpenList) :
    R.Alike (s.finishItem e l).1 (s'.finishItem e' l').1 := by
  obtain ⟨ds, heq, -⟩ := s.exists_finishItem_eq e l
  obtain ⟨ds', heq', -⟩ := s'.exists_finishItem_eq e' l'
  rw [heq, heq']
  exact ⟨h.blocks, h.environments, h.inline?⟩

theorem agree_beginLabel (h : R.Alike s s') (hc : R.Behind s.cursor s'.cursor) (marker marker' : Marker) :
    Agree R.Stands (s.beginLabel marker) (s'.beginLabel marker') := by
  have hstart : Option.Rel R.At (startArgument? .bracketOpen s.cursor)
      (startArgument? .bracketOpen s'.cursor) := rel_startArgument? hc (.inr rfl)
  rw [State.beginLabel, State.beginLabel]
  generalize startArgument? .bracketOpen s.cursor = x at hstart ⊢
  generalize startArgument? .bracketOpen s'.cursor = x' at hstart ⊢
  cases hstart with
  | none => exact .ok (h.stands hc.toAlong)
  | some hat =>
    simp only [h.depth]
    refine (agree_checkDepth _ _ _).bind fun _ _ _ => ?_
    exact .ok (h.inside ⟨.label _ _ _ _, ⟨R.fragments_nil, .nil⟩, .nil⟩ hat.advance)

theorem agree_beginItem (h : R.Alike s s') {e e' : OpenEnvironment} {outer outer' : List OpenEnvironment}
    {l l' : OpenList} (he : R.OfEnvironment e e') (houter : List.Forall₂ R.OfEnvironment outer outer')
    (hl : R.OfList l l') (hc : R.At s.cursor s'.cursor) (hk : s.cursor.current.kind = .command) :
    Agree R.Stands (s.beginItem e outer l) (s'.beginItem e' outer' l') := by
  have hitems := R.items_finish s s' he.blocks hl.items hl.label hl.implicit
  have hfinish := h.finishItem e e' l l'
  have hbehind : R.Behind (s.finishItem e l).1.cursor.advance (s'.finishItem e' l').1.cursor.advance := by
    rw [State.cursor_finishItem, State.cursor_finishItem]
    exact hc.behind_command hk
  simp only [State.beginItem]
  refine agree_beginLabel ?_ hbehind _ _
  exact ⟨hfinish.blocks, .cons ⟨he.name, .list ⟨hl.ordered, hitems, rfl, R.inlines_nil⟩, R.blocks_nil⟩ houter,
    hfinish.inline?⟩

/-! ## Tables -/

section Table

variable {t t' : OpenTable}

theorem OfTable.content (ht : R.OfTable t t') :
    R.OfContent (State.openCell t) (State.openCell t') :=
  ⟨.cell ht, ⟨R.fragments_nil, .nil⟩, .nil⟩

theorem agree_beginSpanningCell (h : R.Alike s s') (ht : R.OfTable t t')
    (hc : R.At s.cursor s'.cursor) (hm : s.cursor.current.isCommand "multicolumn" = true) :
    Agree R.Stands (s.beginSpanningCell R.ctx t) (s'.beginSpanningCell R.ctx' t') := by
  have hk := Token.kind_of_isCommand hm
  refine (agree_readGroup (hc.behind_command hk) _ _ _ _).bind fun x x' hx => ?_
  refine (agree_readGroup hx.behind _ _ _ _).bind fun y y' hy => ?_
  have hspanning : R.OfTable { t with span := columnSpan x.1 } { t' with span := columnSpan x'.1 } :=
    ⟨ht.name, ht.rows, ht.cells, R.count_text hx.text (hx.exact <| hc.groupWhole · hm)⟩
  have hcontent := hspanning.content
  exact agree_openArgument ((h.withCursor y.2 y'.2).withInline hcontent) hcontent hy.behind _ _ _ _
    .spanning

theorem agree_beginCell (h : R.Alike s s') (ht : R.OfTable t t') (hc : R.Along b s.cursor s'.cursor) :
    Agree R.Stands (s.beginCell R.ctx t) (s'.beginCell R.ctx' t') := by
  have hat := hc.skipCellSpacing
  simp only [State.beginCell]
  generalize s.cursor.advanceBy (s.cursor.countWhile State.isCellSpacing) = d at hat ⊢
  generalize s'.cursor.advanceBy (s'.cursor.countWhile State.isCellSpacing) = d' at hat ⊢
  have hcell : R.OfTable { t with cellStart := s.cursor.current.start, span := 1 }
      { t' with cellStart := s'.cursor.current.start, span := 1 } :=
    ⟨ht.name, ht.rows, ht.cells, R.count_refl 1⟩
  have hcommand : d'.current.isCommand "multicolumn" = d.current.isCommand "multicolumn" := by
    obtain ⟨hk, hk', -⟩ | ⟨-, hs, -⟩ := hat.cases
    · rw [Token.isCommand, Token.isCommand, hk, hk']
      rfl
    · exact hs.isCommand _
  rw [hcommand]
  split
  · next hm =>
    exact agree_beginSpanningCell (h.withCursor d d') hcell hat hm
  · exact .ok (h.inside hcell.content hat.toAlong)

theorem agree_beginRow (h : R.Alike s s') (ht : R.OfTable t t') (hc : R.Along b s.cursor s'.cursor) :
    Agree R.Stands (s.beginRow R.ctx t) (s'.beginRow R.ctx' t') := by
  have hrow : R.OfTable { t with rowStart := s.cursor.current.start, cells := [] }
      { t' with rowStart := s'.cursor.current.start, cells := [] } :=
    ⟨ht.name, ht.rows, R.cells_nil, ht.span⟩
  exact agree_beginCell h hrow hc

theorem OfTable.finishCell (ht : R.OfTable t t') (s s' : State) {f f' : Fragments}
    (hf : R.fragments f f') : R.OfTable (s.finishCell t f) (s'.finishCell t' f') :=
  ⟨ht.name, ht.rows, R.cells_finish s s' ht.cells ht.span hf, ht.span⟩

theorem OfTable.finishRow (ht : R.OfTable t t') (s s' : State) :
    R.OfTable (s.finishRow t) (s'.finishRow t') where
  name := by
    rw [State.marker_finishRow, State.marker_finishRow]
    exact ht.name
  rows := R.rows_finish s s' ht.rows ht.cells
  cells := by
    have hcells : ∀ (s : State) (t : OpenTable), (s.finishRow t).cells = t.cells := by
      intro s t
      simp only [State.finishRow]
      split <;> rfl
    rw [hcells, hcells]
    exact ht.cells
  span := by
    have hspan : ∀ (s : State) (t : OpenTable), (s.finishRow t).span = t.span := by
      intro s t
      simp only [State.finishRow]
      split <;> rfl
    rw [hspan, hspan]
    exact ht.span

theorem agree_expectEnd (hc : R.At c c') {begun begun' : Marker} (hname : begun'.text = begun.text) :
    Agree (R.Along false) (State.expectEnd c begun) (State.expectEnd c' begun') := by
  simp only [State.expectEnd, hc.kind]
  split
  · exact .error _ _
  · have hiff : (c.current.kind = .envEnd ∧ c'.current.text = begun'.text)
        ↔ (c.current.kind = .envEnd ∧ c.current.text = begun.text) := by
      refine and_congr_right fun hk => ?_
      rw [(hc.same (by rw [hk]; decide)).name (by rw [hk]; decide) (by rw [hk]; decide), hname]
    simp only [hiff]
    split
    · exact .ok hc.advance
    · exact .error _ _

theorem agree_nextRow (h : R.Alike s s') (ht : R.OfTable t t') (hc : R.At s.cursor s'.cursor)
    (hk : s.cursor.current.kind = .lineBreak) :
    Agree R.Stands (s.nextRow R.ctx t) (s'.nextRow R.ctx' t') := by
  have hbehind : R.Behind s.cursor.advance s'.cursor.advance := hc.behind (by rw [Token.mayTake, hk])
  have hrow := ht.finishRow s s'
  simp only [State.nextRow]
  obtain ⟨hopen, hopen', -⟩ | ⟨hopen, hopen'⟩ := hbehind.at_opener (.inr rfl)
  · rw [if_pos hopen, if_pos hopen']
    exact agree_beginRow (h.withCursor _ _) hrow (behind_skipOptionalArgument hbehind).toAlong
  · rw [if_neg hopen, if_neg hopen']
    exact agree_beginRow (h.withCursor _ _) hrow hbehind.toAlong

theorem agree_closeTable (h : R.Alike s s') (ht : R.OfTable t t') (hc : R.At s.cursor s'.cursor) :
    Agree R.Stands (s.closeTable t) (s'.closeTable t') := by
  have hrow := ht.finishRow s s'
  simp only [State.closeTable]
  refine (agree_expectEnd hc hrow.name).bind fun d d' hd => ?_
  have hwarned : ∀ (u : State) (name : Text) (columns : Nat) (rows : List TableRow),
      ∃ ds, u.warnRagged name columns rows = { u with diagnostics := ds ++ u.diagnostics } :=
    fun u name columns rows => (u.exists_warnRagged_eq name columns rows).imp fun _ hw => hw.1
  obtain ⟨ds, heq⟩ := hwarned s (s.finishRow t).marker.text
    (TableRow.columnCount (s.finishRow t).rows.reverse) (s.finishRow t).rows.reverse
  obtain ⟨ds', heq'⟩ := hwarned s' (s'.finishRow t').marker.text
    (TableRow.columnCount (s'.finishRow t').rows.reverse) (s'.finishRow t').rows.reverse
  rw [heq, heq']
  have halike : R.Alike { s with cursor := d, inline? := none, diagnostics := ds ++ s.diagnostics }
      { s' with cursor := d', inline? := none, diagnostics := ds' ++ s'.diagnostics } :=
    ⟨h.blocks, h.environments, .none⟩
  refine .ok ((halike.addBlocks (R.blocks_table _ _ _ _ hrow.rows)).stands (b := false) ?_)
  rw [State.cursor_addBlocks, State.cursor_addBlocks]
  exact hd

theorem agree_closeCell (h : R.Alike s s') (ht : R.OfTable t t') (hc : R.At s.cursor s'.cursor)
    {f f' : Fragments} (hf : R.fragments f f') :
    Agree R.Stands (s.closeCell R.ctx t f) (s'.closeCell R.ctx' t' f') := by
  have hcell := ht.finishCell s s' hf
  simp only [State.closeCell, hc.kind]
  split
  · exact agree_beginCell (h.withCursor _ _) hcell hc.advance
  · next hk => exact agree_nextRow h hcell hc hk
  · exact agree_closeTable h hcell hc

end Table

/-! ## Closing -/

/-- Blocks are added, and inline content is left. -/
theorem Alike.leave (h : R.Alike s s') (hd : R.Along b c c') {bs bs' : List Block}
    (hb : R.blocks bs bs') :
    R.Stands ({ s with cursor := c, inline? := none }.addBlocks bs)
      ({ s' with cursor := c', inline? := none }.addBlocks bs') := by
  have halike := ((h.withCursor c c').withoutInline).addBlocks hb
  refine halike.stands (b := b) ?_
  rw [State.cursor_addBlocks, State.cursor_addBlocks]
  exact hd

theorem stands_closeHeading (h : R.Alike s s') (hc : R.At s.cursor s'.cursor)
    (command command' : Marker) (level : Nat) {f f' : Fragments} (hf : R.fragments f f') :
    R.Stands (s.closeHeading R.ctx command level f) (s'.closeHeading R.ctx' command' level f') := by
  have hleave := fun flags a b a' b' level => h.leave hc.advance
    (R.blocks_heading flags a b a' b' level (R.inlines_finish hf))
  simp only [State.closeHeading, R.offset_eq]
  split
  · exact ⟨(hleave _ _ _ _ _ _).alike.warn _ _ _ _ _ _, (hleave _ _ _ _ _ _).near,
      (hleave _ _ _ _ _ _).along⟩
  · exact hleave _ _ _ _ _ _

theorem stands_closeLabel (h : R.Alike s s') (hc : R.At s.cursor s'.cursor) {f f' : Fragments}
    (hf : R.fragments f f') : R.Stands (s.closeLabel f) (s'.closeLabel f') := by
  have hlabelled : ∀ {es es' : List OpenEnvironment}, List.Forall₂ R.OfEnvironment es es' →
      R.Stands { s with cursor := s.cursor.advance, inline? := none, environments := es }
        { s' with cursor := s'.cursor.advance, inline? := none, environments := es' } := by
    intro es es' hes
    have halike : R.Alike { s with cursor := s.cursor.advance, inline? := none, environments := es }
        { s' with cursor := s'.cursor.advance, inline? := none, environments := es' } :=
      ⟨h.blocks, hes, .none⟩
    exact halike.stands hc.advance
  simp only [State.closeLabel]
  obtain ⟨he, he'⟩ | ⟨e, outer, e', outer', he, he', hee, houter⟩ := h.environments_cases
  · simp only [he, he']
    exact hlabelled .nil
  · simp only [he, he']
    exact hlabelled (.cons ⟨hee.name, hee.role.withLabel (R.inlines_finish hf), hee.blocks⟩ houter)

theorem closeParagraph_eq (s : State) (start : Nat) (f : Fragments) :
    s.closeParagraph start f = { s with inline? := none }.addBlocks
      (if f.finish.isEmpty then [] else [.paragraph (.span start s.cursor.lastStop) f.finish]) := by
  simp only [State.closeParagraph]
  split
  · rw [addBlocks_nil]
  · rfl

theorem stands_closeParagraph (h : R.Alike s s') (hc : R.Along b s.cursor s'.cursor)
    (start start' : Nat) {f f' : Fragments} (hf : R.fragments f f') :
    R.Stands (s.closeParagraph start f) (s'.closeParagraph start' f') := by
  rw [closeParagraph_eq, closeParagraph_eq]
  exact h.leave hc (R.blocks_paragraph _ _ _ _ (R.inlines_finish hf))

/-- A token at which inline content ends. -/
theorem agree_closeInline {i i' : OpenInline} (h : R.Alike s s') (hi : R.OfContent i i')
    (hc : R.At s.cursor s'.cursor) (hclose : ∀ brace ∈ i.run.braces, s.cursor.current.kind = .groupClose) :
    Agree R.Stands (s.closeInline R.ctx i) (s'.closeInline R.ctx' i') := by
  have hline := hi.line
  have hbraces := hi.run.braces
  have harguments := hi.arguments
  simp only [State.closeInline]
  generalize i.run.braces = bs at hbraces hclose ⊢
  generalize i'.run.braces = bs' at hbraces ⊢
  generalize i.arguments = as at harguments ⊢
  generalize i'.arguments = as' at harguments ⊢
  cases hbraces with
  | @cons brace brace' braces braces' hkept hrest =>
    simp only [hkept]
    split
    · have hbehind : R.Behind s.cursor.advance s'.cursor.advance :=
        hc.behind (by rw [Token.mayTake, hclose brace (by simp)])
      refine agree_openKeptBraces (h.withCursor _ _) ⟨hi.line, ⟨?_, hrest⟩, harguments⟩ hbehind
      exact R.fragments_pushText _ _ _ _ hi.run.fragments (R.exact_unbroken (by decide))
    · exact .ok (h.inside ⟨hi.line, ⟨hi.run.fragments, hrest⟩, harguments⟩ hc.advance)
  | nil =>
    cases harguments with
    | @cons a a' as as' ha hrest =>
      refine .ok (h.inside ⟨hi.line, ⟨?_, ha.outer.braces⟩, hrest⟩ hc.advance)
      exact R.fragments_close _ _ ha.purpose hi.run.fragments ha.outer.fragments
    | nil =>
      generalize i.line = l at hline ⊢
      generalize i'.line = l' at hline ⊢
      cases hline with
      | paragraph => exact .ok (stands_closeParagraph h hc.toAlong _ _ hi.run.fragments)
      | heading => exact .ok (stands_closeHeading h hc _ _ _ hi.run.fragments)
      | label => exact .ok (stands_closeLabel h hc hi.run.fragments)
      | cell ht => exact agree_closeCell h ht hc hi.run.fragments

/-- Inline content that a brace is open in ends at a closing brace. -/
theorem kind_of_endsAt {i : OpenInline} {inList : Bool} {t : Token} (h : i.surround.endsAt inList t = true) :
    ∀ brace ∈ i.run.braces, t.kind = .groupClose := by
  intro brace hbrace
  obtain ⟨opened, braces, hbraces⟩ := List.exists_cons_of_ne_nil (List.ne_nil_of_mem hbrace)
  rw [OpenInline.surround, hbraces, Surround.endsAt] at h
  exact eq_of_beq h

/-- A token in inline content, whether it ends it or not. -/
theorem agree_takeInline {i i' : OpenInline} (h : R.Alike s s') (hi : R.OfContent i i')
    (hc : R.At s.cursor s'.cursor) :
    Agree R.Stands (s.takeInline R.ctx i) (s'.takeInline R.ctx' i') := by
  have hends := hi.surround.endsAt hc s.inList
  simp only [State.takeInline, h.inList, hends]
  split
  · next hend => exact agree_closeInline h hi hc (kind_of_endsAt hend)
  · exact agree_takeToken h hi hc

theorem stands_closeEnvironment {e e' : OpenEnvironment} {outer outer' : List OpenEnvironment}
    (h : R.Alike s s') (he : R.OfEnvironment e e') (houter : List.Forall₂ R.OfEnvironment outer outer')
    (hc : R.At s.cursor s'.cursor) :
    R.Stands (s.closeEnvironment e outer) (s'.closeEnvironment e' outer') := by
  have hadd : ∀ {bs bs' : List Block} {ds ds' : List Diagnostic}, R.blocks bs bs' →
      R.Stands ({ s with
          cursor := s.cursor.advance, environments := outer, diagnostics := ds }.addBlocks bs)
        ({ s' with
          cursor := s'.cursor.advance, environments := outer', diagnostics := ds' }.addBlocks bs') := by
    intro bs bs' ds ds' hb
    have halike : R.Alike
        { s with cursor := s.cursor.advance, environments := outer, diagnostics := ds }
        { s' with cursor := s'.cursor.advance, environments := outer', diagnostics := ds' } :=
      ⟨h.blocks, houter, h.inline?⟩
    refine (halike.addBlocks hb).stands (b := false) ?_
    rw [State.cursor_addBlocks, State.cursor_addBlocks]
    exact hc.advance
  have hrole := he.role
  simp only [State.closeEnvironment]
  generalize e.role = r at hrole ⊢
  generalize e'.role = r' at hrole ⊢
  cases hrole with
  | inPlace => exact hadd he.blocks
  | float => exact hadd he.blocks
  | quote => exact hadd (R.blocks_quote _ _ _ _ he.blocks)
  | @list l l' hl =>
    have hitems := R.items_finish s s' he.blocks hl.items hl.label hl.implicit
    obtain ⟨ds, heq, -⟩ := s.exists_finishItem_eq e l
    obtain ⟨ds', heq', -⟩ := s'.exists_finishItem_eq e' l'
    simp only [heq, heq', hl.ordered]
    exact hadd (R.blocks_list _ _ _ _ _ hitems)

/-! ## Opening -/

section Command

variable (h : R.Alike s s') (hc : R.At s.cursor s'.cursor)
  (hk : s.cursor.current.kind = .command)

include h hc hk

theorem agree_beginHeading (level : Nat) :
    Agree R.Stands (s.beginHeading level) (s'.beginHeading level) := by
  have hbehind := behind_skipOptionalArgument (hc.behind_command hk)
  refine (agree_startGroup hbehind _ _ _ _).bind fun opened opened' hat => ?_
  simp only [h.depth]
  refine (agree_checkDepth _ _ _).bind fun _ _ _ => ?_
  exact .ok (h.inside ⟨.heading _ _ _ _ _, ⟨R.fragments_nil, .nil⟩, .nil⟩ hat.advance)

omit hk in
theorem agree_beginParagraph :
    Agree R.Stands (s.beginParagraph R.ctx) (s'.beginParagraph R.ctx') := by
  have hcontent : R.OfContent { line := .paragraph s.cursor.current.start }
      { line := .paragraph s'.cursor.current.start } :=
    ⟨.paragraph _ _, ⟨R.fragments_nil, .nil⟩, .nil⟩
  exact agree_takeInline (h.withInline hcontent) hcontent hc

theorem agree_takeOtherCommand :
    Agree R.Stands (s.takeOtherCommand R.ctx) (s'.takeOtherCommand R.ctx') := by
  simp only [State.takeOtherCommand, hc.name_of_command hk, h.droppedCount?]
  split
  · exact agree_beginHeading h hc hk _
  · refine (agree_skipCommand hc hk _).bind fun d d' hd => ?_
    exact .ok ((h.withCursor d d').stands hd.toAlong)
  · exact agree_beginParagraph h hc

theorem agree_takeBlockCommand :
    Agree R.Stands (s.takeBlockCommand R.ctx) (s'.takeBlockCommand R.ctx') := by
  have hother := agree_takeOtherCommand h hc hk
  have he := h.environments
  simp only [State.takeBlockCommand, hc.name_of_command hk]
  generalize s.environments = es, s'.environments = es' at he
  cases he with
  | nil => exact hother
  | @cons e e' outer outer' he houter =>
    obtain ⟨marker, role, blocks⟩ := e
    obtain ⟨marker', role', blocks'⟩ := e'
    obtain ⟨hname, hrole, hblocks⟩ := he
    cases hrole with
    | inPlace | float | quote => exact hother
    | list hl =>
      simp only
      split
      · exact agree_beginItem h ⟨hname, .list hl, hblocks⟩ houter hl hc hk
      · exact hother

end Command

section Environment

variable {begun begun' : Marker}

theorem Alike.pushEnvironment (h : R.Alike s s') (c c' : Cursor) (hname : begun'.text = begun.text)
    {r r' : Role} (hr : R.OfRole r r') :
    R.Alike (s.pushEnvironment c begun r) (s'.pushEnvironment c' begun' r') :=
  ⟨h.blocks, .cons ⟨hname, hr, R.blocks_nil⟩ h.environments, h.inline?⟩

theorem agree_skipArguments (hc : R.Behind c c') (hname : begun'.text = begun.text) :
    Agree R.Behind (State.skipArguments R.ctx c begun) (State.skipArguments R.ctx' c' begun') := by
  rw [State.skipArguments, State.skipArguments, hname]
  exact agree_skipGroups _ _ _ _ _ (behind_skipOptionalArgument hc)

theorem agree_beginTable (h : R.Alike s s') (hc : R.Behind c c') (hname : begun'.text = begun.text) :
    Agree R.Stands (s.beginTable R.ctx c begun) (s'.beginTable R.ctx' c' begun') := by
  refine (agree_skipArguments hc hname).bind fun d d' hd => ?_
  exact agree_beginRow (h.withCursor d d') ⟨hname, R.rows_nil, R.cells_nil, R.count_refl 1⟩ hd.toAlong

theorem agree_beginInPlace (h : R.Alike s s') (hc : R.Behind c c') (hname : begun'.text = begun.text) :
    Agree R.Stands (s.beginInPlace R.ctx c begun) (s'.beginInPlace R.ctx' c' begun') := by
  refine (agree_skipArguments hc hname).bind fun d d' hd => ?_
  exact .ok ((h.pushEnvironment d d' hname .inPlace).stands hd.toAlong)

theorem stands_beginList (h : R.Alike s s') (hn : s.inline? = none) (hc : R.Along b c c')
    (hname : begun'.text = begun.text) (ordered : Bool) :
    R.Stands (s.beginList c begun ordered) (s'.beginList c' begun' ordered) where
  alike := h.pushEnvironment _ _ hname (.list ⟨rfl, R.items_nil, rfl, R.inlines_nil⟩)
  near := by
    refine hc.near.skipSpacing c'.reaches_skipSpacing ?_
    show c'.skipSpacing.ahead.dropWhile Token.isSpacing = _
    rw [ahead_skipSpacing, List.dropWhile_idempotent]
  along hi := by
    rw [show (s.beginList c begun ordered).inline? = none from hn] at hi
    cases hi

theorem agree_takeMathEnvironment (h : R.Alike s s') (hc : R.Along false c c')
    (hname : begun'.text = begun.text) (aligned : Bool) :
    Agree R.Stands (s.takeMathEnvironment R.ctx c begun aligned)
      (s'.takeMathEnvironment R.ctx' c' begun' aligned) := by
  have htext := rel_textUpTo?_end hc begun.text
  simp only [State.takeMathEnvironment, hname]
  generalize textUpTo? R.ctx.source _ c.ahead = x at htext ⊢
  generalize textUpTo? R.ctx'.source _ c'.ahead = x' at htext ⊢
  cases htext with
  | none => exact .error _ _
  | @some x x' hx =>
    have hb := R.blocks_math begun.token.start (c.advanceBy x.2).lastStop begun'.token.start
      (c'.advanceBy x'.2).lastStop (if aligned then some begun.text else none) (R.text_trim hx.1)
    refine .ok (((h.withCursor _ _).addBlocks hb).stands (b := false) ?_)
    rw [State.cursor_addBlocks, State.cursor_addBlocks]
    exact hx.2

/-- Past the body of a raw environment, whose begin marker is current, and its end marker. -/
theorem agree_expectEnd_body (hc : R.At c c') (hk : c.current.kind = .envBegin)
    (hraw : c.current.text ∈ rawEnvironments) (hname : begun'.text = begun.text) :
    Agree (R.Along false)
      (State.expectEnd (if c.advance.current.kind = .rawText then c.advance.advance else c.advance) begun)
      (State.expectEnd (if c'.advance.current.kind = .rawText then c'.advance.advance else c'.advance)
        begun') := by
  obtain ⟨hat, hbody⟩ := hc.body hk hraw
  rw [hat.kind]
  split
  · next hk => exact agree_expectEnd (hbody hk) hname
  · exact agree_expectEnd hat hname

theorem agree_takeCode (h : R.Alike s s') (hc : R.At c c') (hk : c.current.kind = .envBegin)
    (hraw : c.current.text ∈ rawEnvironments) (hname : begun'.text = begun.text) :
    Agree R.Stands (s.takeCode c.advance begun) (s'.takeCode c'.advance begun') := by
  obtain ⟨hat, -⟩ := hc.body hk hraw
  have hbody : R.exact (if c.advance.current.kind = .rawText then c.advance.current.text else [])
      (if c'.advance.current.kind = .rawText then c'.advance.current.text else []) := by
    rw [hat.kind]
    split
    · next hk => exact (hat.same (by rw [hk]; decide)).text
    · exact R.exact_nil
  have hend := agree_expectEnd_body hc hk hraw hname
  simp only [State.takeCode, hname]
  refine hend.bind fun d d' hd => ?_
  refine .ok (((h.withCursor d d').addBlocks (R.blocks_code _ _ _ _ _ hbody)).stands (b := false) ?_)
  rw [State.cursor_addBlocks, State.cursor_addBlocks]
  exact hd

theorem agree_skipComment (h : R.Alike s s') (hc : R.At c c') (hk : c.current.kind = .envBegin)
    (hraw : c.current.text ∈ rawEnvironments) (hname : begun'.text = begun.text) :
    Agree R.Stands (s.skipComment c.advance begun) (s'.skipComment c'.advance begun') := by
  refine (agree_expectEnd_body hc hk hraw hname).bind fun d d' hd => ?_
  exact .ok ((h.withCursor d d').stands hd)

end Environment

theorem agree_beginEnvironment (h : R.Alike s s') (hn : s.inline? = none)
    (hc : R.At s.cursor s'.cursor) (hk : s.cursor.current.kind = .envBegin) :
    Agree R.Stands (s.beginEnvironment R.ctx) (s'.beginEnvironment R.ctx') := by
  have hname : s'.cursor.marker.text = s.cursor.marker.text :=
    (hc.same (by rw [hk]; decide)).name (by rw [hk]; decide) (by rw [hk]; decide)
  have hbehind : R.Behind s.cursor.advance s'.cursor.advance := hc.behind (by rw [Token.mayTake, hk])
  simp only [State.beginEnvironment, h.depth, hname]
  refine (agree_checkDepth _ _ _).bind fun _ _ _ => ?_
  split
  · exact .ok (stands_beginList h hn hc.advance hname false)
  · exact .ok (stands_beginList h hn hc.advance hname true)
  · exact agree_beginTable h hbehind hname
  · exact .ok ((h.pushEnvironment _ _ hname .float).stands (behind_skipOptionalArgument hbehind).toAlong)
  · next hkind =>
    exact agree_takeCode h hc hk (State.mem_rawEnvironments_of_ofName? hkind (.inl rfl)) hname
  · next hkind =>
    exact agree_skipComment h hc hk (State.mem_rawEnvironments_of_ofName? hkind (.inr rfl)) hname
  · exact .ok ((h.pushEnvironment _ _ hname .quote).stands hc.advance)
  · exact agree_takeMathEnvironment h hc.advance hname false
  · exact agree_takeMathEnvironment h hc.advance hname true
  · exact agree_beginInPlace h hbehind hname
  · exact agree_beginInPlace (h.warn _ _ _ _ _ _) hbehind hname

theorem agree_takeDisplayMath (h : R.Alike s s') (hc : R.At s.cursor s'.cursor)
    (hk : s.cursor.current.kind = .mathDisplay) :
    Agree R.Stands (s.takeDisplayMath R.ctx) (s'.takeDisplayMath R.ctx') := by
  have heq : ∀ (s : State) (text : Text) (info : NodeInfo),
      (if text = [] then s else s.addBlocks [.math info text none])
        = s.addBlocks (if text = [] then [] else [.math info text none]) := by
    intro s text info
    split
    · rw [addBlocks_nil]
    · rfl
  refine (agree_readMath hc (.inr hk)).bind_of fun x x' hread hx => ?_
  obtain ⟨t, ht⟩ := exists_trim_of_readMath hread
  have hb := fun a b a' b' => R.blocks_displayMath a b a' b' (ht ▸ hx.1)
  simp only [heq, ht]
  refine .ok (((h.withCursor x.2 x'.2).addBlocks (hb _ _ _ _)).stands (b := false) ?_)
  rw [State.cursor_addBlocks, State.cursor_addBlocks]
  exact hx.2

/-- A token at which a block begins. -/
theorem agree_beginBlock (h : R.Alike s s') (hn : s.inline? = none) (hc : R.At s.cursor s'.cursor) :
    Agree R.Stands (s.beginBlock R.ctx) (s'.beginBlock R.ctx') := by
  simp only [State.beginBlock, hc.kind]
  split
  · next hk => exact agree_beginEnvironment h hn hc hk
  · next hk =>
    rw [(hc.same (by rw [hk]; decide)).opensDisplay]
    split
    · exact agree_takeDisplayMath h hc hk
    · exact agree_beginParagraph h hc
  · next hk => exact agree_takeBlockCommand h hc hk
  · exact agree_beginParagraph h hc

/-- A token that ends an environment. -/
theorem agree_endEnvironment (h : R.Alike s s') (hc : R.At s.cursor s'.cursor)
    (hk : s.cursor.current.kind = .envEnd) :
    Agree R.Stands s.endEnvironment s'.endEnvironment := by
  have hname : s'.cursor.marker.text = s.cursor.marker.text :=
    (hc.same (by rw [hk]; decide)).name (by rw [hk]; decide) (by rw [hk]; decide)
  rw [State.endEnvironment, State.endEnvironment]
  obtain ⟨he, he'⟩ | ⟨e, outer, e', outer', he, he', hee, houter⟩ := h.environments_cases
  · rw [he, he']
    exact .error _ _
  · simp only [he, he', hname, hee.name]
    split
    · exact .ok (stands_closeEnvironment h hee houter hc)
    · exact .error _ _

theorem agree_endDocument (h : R.Alike s s') :
    Agree (fun _ _ => True) s.endDocument s'.endDocument := by
  have he := h.environments
  rw [State.endDocument, State.endDocument]
  generalize s.environments = es, s'.environments = es' at he
  cases he with
  | nil => exact .ok trivial
  | cons => exact .error _ _

end LatexMarkdown.Parse.Likeness
