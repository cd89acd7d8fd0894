import LatexMarkdown.Proofs.Embedding.Inline
/-!
  Closing through a frame.

  A table cell begins with what may stand before its content, and so does a list with what comes
  before its first item: where that is all there is, the framed run gets into the tail.  `Onward`
  allows for it, since then something is open that nothing closes any more (`Stuck`).
-/
namespace LatexMarkdown.Parse

/-- Something is open that the end of the tokens does not close. -/
def Stuck (s : State) : Prop :=
  s.environments ≠ [] ∨ ∃ i, s.inline? = some i ∧ i.surround ≠ .paragraph

/-- A step comes to the image of the state that it comes to without the frame, or both are stuck at
the end of the list. -/
def Onward (φ : Frame) (t : State) (y : Except Failure State) : Prop :=
  y = .ok (φ.state t) ∨
    (t.cursor.ahead = [] ∧ Stuck t ∧ φ.ending? ≠ none ∧
      (Barren φ.tail → ∃ t', y = .ok t' ∧ Stuck t' ∧ Barren t'.cursor.ahead))

namespace Follows

variable {φ : Frame} {α β : Type}

theorem mono {ok ok' : α → Except Failure β → Prop} {x : Except Failure α} {y : Except Failure β}
    (h : Follows φ ok x y) (hok : ∀ a, ok a y → ok' a y) : Follows φ ok' x y := by
  cases x with
  | ok a => exact hok a h
  | error e => exact h

theorem onward {x y : Except Failure State} (h : Follows φ (Gives φ.state) x y) :
    Follows φ (Onward φ) x y := h.mono fun _ => .inl

end Follows

/-- Skipping in a barren tail leaves a barren tail. -/
theorem Barren.dropWhile {l : List Token} (h : Barren l) {p : Token → Bool}
    (hp : ∀ t : Token, t.kind = .envBegin → p t = false) : Barren (l.dropWhile p) := by
  induction h with
  | nil => exact .nil
  | @newLine t rest ht hrest ih =>
    rw [List.dropWhile_cons]
    split
    · exact ih
    · exact .newLine ht hrest
  | @raw t rest ht hname hrest =>
    rw [List.dropWhile_cons, hp t ht]
    exact .raw ht hname hrest

namespace Frame

variable {φ : Frame} {ctx ctx' : Context} {s : State} {i : OpenInline}

/-! ## Lists -/

theorem labelled_offset (label content : List Inline) :
    labelled (label.map (Inline.mapOffsets φ.offset)) (content.map (Inline.mapOffsets φ.offset))
      = (labelled label content).map (Inline.mapOffsets φ.offset) := by
  have hall := Inline.mapAllOffsets_eq_map φ.offset
  unfold labelled
  rw [List.head?_map, List.getLast?_map]
  cases label.head? with
  | none => rfl
  | some first =>
    cases label.getLast? with
    | none => rfl
    | some last => cases content <;> simp [Inline.mapOffsets, hall, NodeInfo.mapOffsets]

theorem listItem_offset (start stop : Nat) (label : List Inline) (blocks : List Block) :
    listItem (φ.offset start) (φ.offset stop) (label.map (Inline.mapOffsets φ.offset))
        (blocks.map (Block.mapOffsets φ.offset))
      = (listItem start stop label blocks).mapOffsets φ.offset := by
  have hall := Inline.mapAllOffsets_eq_map φ.offset
  have hblocks := Block.mapAllOffsets_eq_map φ.offset
  simp only [listItem, ListItem.mapOffsets, hall, hblocks]
  cases blocks with
  | nil => exact congrArg (fun cs => ListItem.mk _ cs []) (labelled_offset label [])
  | cons b rest =>
    cases b with
    | paragraph info children =>
      simp only [List.map_cons, Block.mapOffsets, hall]
      exact congrArg (fun cs => ListItem.mk _ cs (rest.map (Block.mapOffsets φ.offset)))
        (labelled_offset label children)
    | _ =>
      exact congrArg (fun cs => ListItem.mk _ cs (List.map _ (_ :: rest))) (labelled_offset label [])

theorem finishItem_state (hφ : φ.Lawful) (s : State) (e : OpenEnvironment) (l : OpenList) :
    (φ.state s).finishItem (φ.environment e) (φ.list l)
      = (φ.state (s.finishItem e l).1,
          (s.finishItem e l).2.map (ListItem.mapOffsets φ.offset)) := by
  have hitem : listItem (φ.list l).item.start (φ.state s).cursor.lastStop (φ.list l).item.label
        (φ.environment e).blocks.reverse
      = (listItem l.item.start s.cursor.lastStop l.item.label e.blocks.reverse).mapOffsets
          φ.offset := by
    rw [← listItem_offset, List.map_reverse, cursor_state, lastStop_cursor hφ]
    rfl
  have himplicit : (φ.list l).item.implicit = l.item.implicit := rfl
  have hempty : (φ.environment e).blocks.isEmpty = e.blocks.isEmpty := List.isEmpty_map
  simp only [State.finishItem, hitem, himplicit, hempty]
  split
  · rfl
  · split
    · rfl
    · -- An item made up carries a mark, which moves with it.
      have hmark : ∀ (flags : NodeFlags) (item : ListItem),
          ({ item.mapOffsets φ.offset with
              info := { (item.mapOffsets φ.offset).info with flags } } : ListItem)
            = ({ item with info := { item.info with flags } } : ListItem).mapOffsets φ.offset := by
        intro flags item
        obtain ⟨info, children, blocks⟩ := item
        rfl
      exact Prod.ext (warnAt_state φ s _ e.marker.token)
        (congrArg (· :: _) (hmark { synthetic := true } _))

theorem beginLabel_state (hφ : φ.Lawful) (hc : s.cursor.Terminated) (marker : Marker) :
    Follows φ (Gives φ.state) (s.beginLabel marker)
      ((φ.state s).beginLabel (φ.marker marker)) := by
  simp only [State.beginLabel, cursor_state, startArgument?_cursor hφ hc (.inr rfl), depth_state]
  cases hs : startArgument? .bracketOpen s.cursor with
  | none => exact .pure (g := φ.state) s
  | some opened =>
    have hopened := (reaches_of_startArgument? hs).terminated hc
    have hsees : φ.Sees opened := .of_kind hopened (by rw [kind_of_startArgument? hs]; decide)
    rw [Option.map_some]
    refine (φ.checkDepth_marker s.depth marker).bind fun _ _ => ?_
    show Except.ok _ = Except.ok _
    rw [advance_cursor hsees, marker_cursor hsees]
    rfl

theorem beginItem_state (hφ : φ.Lawful) (hc : s.cursor.Terminated) (h : φ.Sees s.cursor)
    (e : OpenEnvironment) (outer : List OpenEnvironment) (l : OpenList) :
    Follows φ (Gives φ.state) (s.beginItem e outer l)
      ((φ.state s).beginItem (φ.environment e) (outer.map φ.environment) (φ.list l)) := by
  simp only [State.beginItem, finishItem_state hφ]
  have hcursor : (s.finishItem e l).1.cursor = s.cursor := State.cursor_finishItem s e l
  generalize s.finishItem e l = finished at hcursor ⊢
  obtain ⟨s', items⟩ := finished
  rw [← hcursor] at hc h
  simp only [cursor_state, marker_cursor h, advance_cursor h]
  exact beginLabel_state (s := { s' with
    cursor := s'.cursor.advance
    environments := { e with
      role := .list { l with
        items, item := { start := s'.cursor.marker.token.start, implicit := false } }
      blocks := [] } :: outer }) hφ hc.advance s'.cursor.marker

/-! ## Tables -/

theorem finishCell_state (hφ : φ.Lawful) (s : State) (t : OpenTable) (f : Fragments) :
    (φ.state s).finishCell (φ.table t) (f.mapOffsets φ.offset) = φ.table (s.finishCell t f) := by
  have hall := Inline.mapAllOffsets_eq_map φ.offset
  simp only [State.finishCell, cursor_state, lastStop_cursor hφ, table, max_offset,
    Fragments.finish_map]
  simp [TableCell.mapOffsets, NodeInfo.mapOffsets, NodeInfo.span, hall]

theorem finishRow_state (hφ : φ.Lawful) (s : State) (t : OpenTable) :
    (φ.state s).finishRow (φ.table t) = φ.table (s.finishRow t) := by
  have hany : (t.cells.map (TableCell.mapOffsets φ.offset)).reverse.any (!·.children.isEmpty)
      = t.cells.reverse.any (!·.children.isEmpty) := by
    rw [← List.map_reverse, List.any_map]
    congr 1
    funext c
    exact congrArg (!·) (TableCell.isEmpty_children_mapOffsets φ.offset c)
  simp only [State.finishRow, cursor_state, lastStop_cursor hφ, table, max_offset, hany]
  split
  · simp [TableRow.mapOffsets, NodeInfo.mapOffsets, NodeInfo.span]
  · rfl

theorem warnRagged_state (s : State) (environment : Text) (columns : Nat)
    (rows : List TableRow) :
    (φ.state s).warnRagged environment columns (rows.map (TableRow.mapOffsets φ.offset))
      = φ.state (s.warnRagged environment columns rows) := by
  unfold State.warnRagged
  induction rows generalizing s with
  | nil => rfl
  | cons r rest ih =>
    rw [List.map_cons, List.foldl_cons, List.foldl_cons, ← ih]
    congr 1
    simp only [TableRow.length_cells_mapOffsets]
    split <;> rfl

/-- Behind the tokens of the list no end marker is found. -/
theorem expectEnd_cursor (hφ : φ.Lawful) {c : Cursor} (hc : c.Terminated) (begun : Marker) :
    Follows φ (Gives φ.cursor) (State.expectEnd c begun)
      (State.expectEnd (φ.cursor c) (φ.marker begun)) := by
  by_cases h : φ.Sees c
  · simp only [State.expectEnd, current_cursor h, marker_cursor h, kind_token, text_token,
      text_marker, advance_cursor h]
    split
    · exact .error _ ⟨_, begun⟩
    split
    · exact .pure _
    · exact .error _ ⟨_, c.marker⟩
  · have hend : c.current.kind = .endOfFile := by
      by_contra hk
      exact h (.of_kind hc hk)
    have hkind : (φ.cursor c).current.kind ≠ .envEnd := by
      rw [Ne, kind_current hφ hc (by decide) (by decide) (by decide), hend]
      decide
    simp only [State.expectEnd, hend, if_true, hkind, false_and, if_false]
    refine ⟨fun hnone => absurd (.inl hnone) h, fun _ => ?_⟩
    split <;> exact ⟨_, rfl⟩

theorem beginSpanningCell_state (hφ : φ.Lawful) (hc : φ.Carries ctx ctx' s.cursor)
    (h : φ.Sees s.cursor) (t : OpenTable) :
    Follows φ (Gives φ.state) (s.beginSpanningCell ctx t)
      ((φ.state s).beginSpanningCell ctx' (φ.table t)) := by
  have hadvance := hc.of_reaches (Cursor.Reaches.advance s.cursor)
  simp only [State.beginSpanningCell, cursor_state, marker_cursor h, advance_cursor h,
    missingArgument_marker]
  refine (readGroup_cursor hφ hadvance s.cursor.marker _).bind fun r hr => ?_
  have hnext := hadvance.of_reaches (reaches_of_readGroup hr)
  refine (readGroup_cursor hφ hnext s.cursor.marker _).bind fun r' hr' => ?_
  have hlast := hnext.of_reaches (reaches_of_readGroup hr')
  generalize ((Number.leadingInt? r.1).bind fun n => (Number.ofInt n).toInt?).getD 1 = span
  exact openArgument_state (s := { s with
    cursor := r'.2, inline? := some (State.openCell { t with span := max 1 span.toNat }) })
    hφ hlast.terminated (State.openCell { t with span := max 1 span.toNat }) s.cursor.marker _
    .spanning

/-- Where skipping gets into a barren tail it stays in one. -/
theorem barren_skipWhile {c : Cursor} {p : Token → Bool} (hp : ∀ t, p (φ.token t) = p t)
    (hend : ∀ t, p t = true → t.kind ≠ .endOfFile)
    (hbegin : ∀ t : Token, t.kind = .envBegin → p t = false) (hbarren : Barren φ.tail)
    (h : (c.advanceBy (c.countWhile p)).ahead = []) :
    Barren ((φ.cursor c).advanceBy ((φ.cursor c).countWhile p)).ahead := by
  rw [Cursor.ahead_skipWhile hend] at h ⊢
  have hall : ∀ t ∈ c.ahead.map φ.token, p t = true := by
    intro t ht
    obtain ⟨u, hu, rfl⟩ := List.mem_map.mp ht
    rw [hp]
    exact List.dropWhile_eq_nil_iff.mp h u hu
  show Barren ((c.ahead.map φ.token ++ φ.tail).dropWhile p)
  rw [List.dropWhile_append_of_pos hall]
  exact hbarren.dropWhile hbegin

theorem isCellSpacing_kind {t : Token} (h : State.isCellSpacing t = true) :
    t.kind ≠ .endOfFile ∧ t.kind ≠ .envBegin ∧ t.kind ≠ .command := by
  refine ⟨?_, ?_, ?_⟩ <;> intro hk <;>
    simp [State.isCellSpacing, Token.isSpacing, Token.isBlankText, hk] at h

/-- A cell begins at the same token, or there is none of the list any more. -/
theorem beginCell_state (hφ : φ.Lawful) (hc : φ.Carries ctx ctx' s.cursor) {t t' : OpenTable}
    (ht : φ.Sees s.cursor → ∀ start, { t' with cellStart := φ.offset start, span := 1 }
      = φ.table { t with cellStart := start, span := 1 }) :
    Follows φ (Onward φ) (s.beginCell ctx t) ((φ.state s).beginCell ctx' t') := by
  have hend : ∀ u : Token, State.isCellSpacing u = true → u.kind ≠ .endOfFile :=
    fun u hu => (isCellSpacing_kind hu).1
  have hreach := Cursor.Reaches.advanceBy s.cursor (s.cursor.countWhile State.isCellSpacing)
  have hafter := hc.of_reaches hreach
  by_cases h : φ.Sees (s.cursor.advanceBy (s.cursor.countWhile State.isCellSpacing))
  · have hsees : φ.Sees s.cursor := by
      refine h.imp_right fun hne hnil => hne ?_
      have hle := hreach.length_ahead_le
      rw [hnil] at hle
      exact List.length_eq_zero_iff.mp (Nat.le_zero.mp hle)
    refine Follows.onward ?_
    simp only [State.beginCell, cursor_state, skipWhile_cursor (fun _ => rfl) hend h,
      current_cursor h, current_cursor hsees, start_token, ht hsees]
    generalize s.cursor.advanceBy (s.cursor.countWhile State.isCellSpacing) = c at h hafter ⊢
    show Follows φ (Gives φ.state) _ (if c.current.isCommand "multicolumn" then _ else _)
    split
    · exact beginSpanningCell_state (s := { s with cursor := c }) hφ hafter h _
    · exact .pure (g := φ.state) _
  · -- The cell is left open at the end of the list.
    obtain ⟨hending, hnil⟩ : φ.ending? ≠ none ∧
        (s.cursor.advanceBy (s.cursor.countWhile State.isCellSpacing)).ahead = [] := by
      simpa [Sees, not_or] using h
    have hopen : ∀ (c : Cursor) (t : OpenTable),
        Stuck { s with cursor := c, inline? := some (State.openCell t) } :=
      fun c t => .inr ⟨_, rfl, by simp [State.openCell, OpenInline.surround]⟩
    have hcommand : (s.cursor.advanceBy (s.cursor.countWhile State.isCellSpacing)).current.isCommand
        "multicolumn" = false := by
      rw [Cursor.current_of_ahead_nil hnil]
      simp [Token.isCommand, show _ = TokenKind.endOfFile from hafter.terminated]
    simp only [State.beginCell, hcommand]
    refine .inr ⟨hnil, hopen _ _, hending, fun hbarren => ?_⟩
    have hrest := barren_skipWhile (φ := φ) (p := State.isCellSpacing) (fun _ => rfl) hend
      (fun u hu => by_contra fun hp => (isCellSpacing_kind (by simpa using hp)).2.1 hu)
      hbarren hnil
    have hreach' := Cursor.Reaches.advanceBy (φ.cursor s.cursor)
      ((φ.cursor s.cursor).countWhile State.isCellSpacing)
    have hterminated := hreach'.terminated (hφ.terminated hc.terminated)
    rw [cursor_state]
    generalize (φ.cursor s.cursor).advanceBy
      ((φ.cursor s.cursor).countWhile State.isCellSpacing) = c at hrest hterminated ⊢
    have hcommand' : c.current.isCommand "multicolumn" = false := by
      have hkind : c.current.kind ≠ .command := by
        cases ha : c.ahead with
        | nil =>
          rw [Cursor.current_of_ahead_nil ha, show _ = TokenKind.endOfFile from hterminated]
          decide
        | cons u rest =>
          rw [Cursor.current_of_ahead ha]
          rcases hrest.kind u (by rw [ha]; exact List.mem_cons_self) with hk | hk | hk <;>
            simp [hk]
      simp [Token.isCommand, hkind]
    rw [hcommand']
    exact ⟨_, rfl, .inr ⟨_, rfl, by simp [State.openCell, OpenInline.surround]⟩, hrest⟩

theorem beginRow_state (hφ : φ.Lawful) (hc : φ.Carries ctx ctx' s.cursor) {t t' : OpenTable}
    (hmarker : t'.marker = φ.marker t.marker)
    (hrows : t'.rows = t.rows.map (TableRow.mapOffsets φ.offset)) :
    Follows φ (Onward φ) (s.beginRow ctx t) ((φ.state s).beginRow ctx' t') := by
  refine beginCell_state hφ hc fun h start => ?_
  rw [cursor_state, current_cursor h, hmarker, hrows]
  rfl

theorem nextRow_state (hφ : φ.Lawful) (hc : φ.Carries ctx ctx' s.cursor) (h : φ.Sees s.cursor)
    (t : OpenTable) :
    Follows φ (Onward φ) (s.nextRow ctx t) ((φ.state s).nextRow ctx' (φ.table t)) := by
  have hadvance := hc.of_reaches (Cursor.Reaches.advance s.cursor)
  have hkind : (φ.cursor s.cursor.advance).current.kind = .bracketOpen
      ↔ s.cursor.advance.current.kind = .bracketOpen :=
    kind_current hφ hadvance.terminated (by decide) (by decide) (by decide)
  simp only [State.nextRow, finishRow_state hφ, cursor_state, advance_cursor h, hkind]
  split
  · rw [skipOptionalArgument_cursor hφ hadvance.terminated]
    exact beginRow_state (s := { s with cursor := skipOptionalArgument s.cursor.advance }) hφ
      (hadvance.of_reaches (reaches_skipOptionalArgument _)) rfl rfl
  · exact beginRow_state (s := { s with cursor := s.cursor.advance }) hφ hadvance rfl rfl

theorem closeTable_state (hφ : φ.Lawful) (hc : s.cursor.Terminated) (t : OpenTable) :
    Follows φ (Gives φ.state) (s.closeTable t) ((φ.state s).closeTable (φ.table t)) := by
  simp only [State.closeTable, finishRow_state hφ]
  generalize s.finishRow t = t
  refine (expectEnd_cursor hφ hc t.marker).bind fun after _ => ?_
  show Except.ok _ = Except.ok _
  have hrows : (φ.table t).rows.reverse = t.rows.reverse.map (TableRow.mapOffsets φ.offset) :=
    List.map_reverse.symm
  have hragged := warnRagged_state (φ := φ) s t.marker.text (TableRow.columnCount t.rows.reverse)
    t.rows.reverse
  have htext : (φ.table t).marker.text = t.marker.text := rfl
  simp only [hrows, TableRow.columnCount_map, htext, hragged, lastStop_cursor hφ]
  refine congrArg Except.ok ?_
  rw [← addBlocks_state]
  rfl

/-- A cell is closed alike, and with it a row or the table. -/
theorem closeCell_state (hφ : φ.Lawful) (hc : φ.Carries ctx ctx' s.cursor) (h : φ.Sees s.cursor)
    (t : OpenTable) (f : Fragments) :
    Follows φ (Onward φ) (s.closeCell ctx t f)
      ((φ.state s).closeCell ctx' (φ.table t) (f.mapOffsets φ.offset)) := by
  simp only [State.closeCell, finishCell_state hφ, cursor_state, current_cursor h, kind_token,
    advance_cursor h]
  split
  · exact beginCell_state (s := { s with cursor := s.cursor.advance }) hφ
      (hc.of_reaches (Cursor.Reaches.advance s.cursor)) fun _ _ => rfl
  · exact nextRow_state hφ hc h _
  · exact (closeTable_state hφ hc.terminated _).onward

/-! ## Closing -/

theorem closeHeading_state (hφ : φ.Lawful) (hc : φ.Carries ctx ctx' s.cursor)
    (h : φ.Sees s.cursor) (command : Marker) (level : Nat) (f : Fragments) :
    (φ.state s).closeHeading ctx' (φ.marker command) level (f.mapOffsets φ.offset)
      = φ.state (s.closeHeading ctx command level f) := by
  simp only [State.closeHeading, cursor_state, advance_cursor h, hc.offset_eq,
    lastStop_cursor hφ, Fragments.finish_map]
  generalize (level : Int) + ctx.settings.headingLevelOffset = requested
  have hblocks : ∀ info : NodeInfo, ({ φ.state s with
        cursor := φ.cursor s.cursor.advance, inline? := none } : State).addBlocks
        [.heading (info.mapOffsets φ.offset) (.ofNat (clampLevel requested))
          (f.finish.map (Inline.mapOffsets φ.offset))]
      = φ.state (({ s with cursor := s.cursor.advance, inline? := none } : State).addBlocks
        [.heading info (.ofNat (clampLevel requested)) f.finish]) := by
    intro info
    rw [← addBlocks_state, List.map_singleton, Block.mapOffsets, Inline.mapAllOffsets_eq_map]
    rfl
  have hheading := hblocks {
    flags := { clamped := clampLevel requested ≠ requested }
    start := command.token.start
    stop := s.cursor.advance.lastStop }
  split
  · refine Eq.trans ?_ (warnAt_state φ _ _ command.token)
    exact congrArg (fun s' : State => s'.warnAt _ _) hheading
  · exact hheading

theorem closeLabel_state (h : φ.Sees s.cursor) (f : Fragments) :
    (φ.state s).closeLabel (f.mapOffsets φ.offset) = φ.state (s.closeLabel f) := by
  simp only [State.closeLabel, cursor_state, advance_cursor h, environments_state]
  cases s.environments with
  | nil => rfl
  | cons e outer =>
    have hrole : (φ.environment e).role.withLabel (f.mapOffsets φ.offset).finish
        = φ.role (e.role.withLabel f.finish) := by
      rw [Fragments.finish_map]
      cases hr : e.role <;> simp [environment, hr, role, Role.withLabel, list]
    simp only [List.map_cons, hrole]
    rfl

theorem closeParagraph_state (hφ : φ.Lawful) (s : State) (start : Nat) (f : Fragments) :
    (φ.state s).closeParagraph (φ.offset start) (f.mapOffsets φ.offset)
      = φ.state (s.closeParagraph start f) := by
  simp only [State.closeParagraph, Fragments.finish_map, List.isEmpty_map, cursor_state,
    lastStop_cursor hφ]
  split
  · rfl
  · rw [← addBlocks_state, List.map_singleton, Block.mapOffsets, Inline.mapAllOffsets_eq_map]
    rfl

/-- What ends at the current token is closed alike. -/
theorem closeInline_state (hφ : φ.Lawful) (hc : φ.Carries ctx ctx' s.cursor)
    (h : φ.Sees s.cursor) (i : OpenInline) :
    Follows φ (Onward φ) (s.closeInline ctx i)
      ((φ.state s).closeInline ctx' (φ.content i)) := by
  obtain ⟨line, ⟨fragments, braces⟩, arguments⟩ := i
  have hadvance := hc.terminated.advance
  simp only [State.closeInline, cursor_state, current_cursor h]
  cases braces with
  | cons brace braces =>
    refine Follows.onward ?_
    have hkept : (φ.brace brace).kept = brace.kept := rfl
    simp only [content, run, List.map_cons, hkept, advance_cursor h]
    split
    · have hpush := Fragments.pushText_map φ.offset fragments s.cursor.current.start
        s.cursor.current.stop "\x7d"
      simp only [start_token, stop_token, hpush]
      exact openKeptBraces_state (s := { s with cursor := s.cursor.advance }) hφ hadvance
        ⟨line, ⟨_, braces⟩, arguments⟩
    · exact .pure (g := φ.state) { s with
        cursor := s.cursor.advance, inline? := some ⟨line, ⟨fragments, braces⟩, arguments⟩ }
  | nil =>
    cases arguments with
    | cons argument arguments =>
      refine Follows.onward ?_
      have hclose := closeArgument_offset (φ := φ) argument.purpose fragments
        s.cursor.current.stop argument.outer.fragments
      have hcontent : ∀ after : Cursor, (Except.ok { φ.state s with
            cursor := φ.cursor after
            inline? := some
              { line := φ.line line
                run :=
                  { fragments := State.closeArgument (φ.purpose argument.purpose)
                      (fragments.mapOffsets φ.offset) (φ.offset s.cursor.current.stop)
                      (argument.outer.fragments.mapOffsets φ.offset)
                    braces := argument.outer.braces.map φ.brace }
                arguments := arguments.map φ.argument } } : Except Failure State)
          = Except.ok (φ.state { s with
            cursor := after
            inline? := some
              { line := line
                run := { argument.outer with
                  fragments := State.closeArgument argument.purpose fragments
                    s.cursor.current.stop argument.outer.fragments }
                arguments := arguments } }) := by
        intro after
        rw [hclose]
        rfl
      have heq := hcontent s.cursor.advance
      simp only [advance_cursor h]
      exact heq
    | nil =>
      cases line with
      | paragraph start =>
        exact Follows.onward (congrArg Except.ok (closeParagraph_state hφ s start fragments))
      | heading command level opener =>
        exact Follows.onward
          (congrArg Except.ok (closeHeading_state hφ hc h command level fragments))
      | label item opener =>
        exact Follows.onward (congrArg Except.ok (closeLabel_state h fragments))
      | cell t => exact closeCell_state hφ hc h t fragments

theorem closeEnvironment_state (hφ : φ.Lawful) (h : φ.Sees s.cursor) (e : OpenEnvironment)
    (outer : List OpenEnvironment) :
    (φ.state s).closeEnvironment (φ.environment e) (outer.map φ.environment)
      = φ.state (s.closeEnvironment e outer) := by
  have hinPlace : ({ φ.state s with
        cursor := φ.cursor s.cursor.advance
        environments := outer.map φ.environment } : State).addBlocks (φ.environment e).blocks
      = φ.state (({ s with cursor := s.cursor.advance, environments := outer } : State).addBlocks
          e.blocks) := by
    rw [← addBlocks_state]
    rfl
  obtain ⟨marker, role, blocks⟩ := e
  cases role with
  | inPlace | float =>
    simp only [State.closeEnvironment, cursor_state, advance_cursor h]
    exact hinPlace
  | quote =>
    simp only [State.closeEnvironment, cursor_state, advance_cursor h, lastStop_cursor hφ]
    rw [← addBlocks_state, List.map_singleton, Block.mapOffsets, Block.mapAllOffsets_eq_map,
      List.map_reverse]
    rfl
  | list l =>
    have hfinish := finishItem_state hφ s ⟨marker, .list l, blocks⟩ l
    simp only [State.closeEnvironment, cursor_state, advance_cursor h, lastStop_cursor hφ]
    -- Closing a list reads nothing of its finished items but their places.
    refine (congrArg (fun r : State × List ListItem => ({ r.1 with
        cursor := φ.cursor s.cursor.advance
        environments := outer.map φ.environment } : State).addBlocks
      [.list (.span (φ.offset marker.token.start) (φ.offset s.cursor.advance.lastStop))
        l.ordered r.2.reverse]) hfinish).trans ?_
    rw [← addBlocks_state, List.map_singleton, Block.mapOffsets,
      ListItem.mapAllOffsets_eq_map, List.map_reverse]
    rfl

end Frame

end LatexMarkdown.Parse
