import LatexMarkdown.Proofs.Levels.Inline
/-!
  Blocks read in states with other headings.

  One lemma for everything that opens, closes or reads a block: in a mapped state, and under any
  offset, it comes to the mapped state or to the same failure.  Only closing a heading looks at the
  offset.  There the map has to carry the ranks under the one offset over to those under the other
  (`Rank.Carries`), and what is said about the level is left out (`closeHeading_mapRanks`).
-/
namespace LatexMarkdown

/-- Ranks under one offset go over to those under another, for levels that commands stand for. -/
def Rank.Carries (f : Rank → Rank) (offset offset' : Int) : Prop :=
  ∀ level, 1 ≤ level → level ≤ 3 → f (.of offset level) = .of offset' level

theorem Rank.carries_id (offset : Int) : Rank.Carries id offset offset := fun _ _ _ => rfl

namespace Parse

variable {f : Rank → Rank}

theorem listItem_mapRanks (start stop : Nat) (label : List Inline) (blocks : List Block) :
    listItem start stop label (blocks.map (Block.mapRanks f))
      = (listItem start stop label blocks).mapRanks f := by
  cases blocks with
  | nil => simp only [listItem, List.map_nil, ListItem.mapRanks, Block.mapAllRanks_eq_map]
  | cons b rest =>
    -- The first block is content if it is a paragraph, and no map makes it one.
    cases b <;>
      simp only [listItem, List.map_cons, ListItem.mapRanks, Block.mapRanks, Block.mapAllRanks_eq_map]

/-- Does a line that is a heading have a level that a command stands for? -/
def Line.InRange (line : Line) : Prop :=
  ∀ command level opener, line = .heading command level opener → 1 ≤ level ∧ level ≤ 3

namespace State

variable {ctx : Context} {offset : Int}

/-! ## Lists -/

theorem finishItem_mapRanks (s : State) (e : OpenEnvironment) (l : OpenList) :
    (s.mapRanks f).finishItem (e.mapRanks f) (l.mapRanks f)
      = ((s.finishItem e l).1.mapRanks f, (s.finishItem e l).2.map (ListItem.mapRanks f)) := by
  have hitem := listItem_mapRanks (f := f) l.item.start s.cursor.lastStop l.item.label
    e.blocks.reverse
  simp only [finishItem, OpenEnvironment.mapRanks, OpenList.mapRanks, cursor_mapRanks,
    ← List.map_reverse, hitem, List.isEmpty_map]
  split
  · rfl
  · split
    · rfl
    · simp only [warnAt]
      rw [warn_mapRanks (by simp [Degradation.code])]
      rfl

theorem beginLabel_mapRanks (s : State) (marker : Marker) :
    (s.mapRanks f).beginLabel marker = mapRanks f <$> s.beginLabel marker := by
  simp only [beginLabel]
  rw [cursor_mapRanks, depth_mapRanks]
  split
  · rw [map_bind]
    rfl
  · rfl

theorem beginItem_mapRanks (s : State) (e : OpenEnvironment) (outer : List OpenEnvironment)
    (l : OpenList) :
    (s.mapRanks f).beginItem (e.mapRanks f) (outer.map (OpenEnvironment.mapRanks f)) (l.mapRanks f)
      = mapRanks f <$> s.beginItem e outer l := by
  simp only [beginItem, finishItem_mapRanks]
  let finished := (s.finishItem e l).1
  let item : OpenItem := { start := finished.cursor.marker.token.start, implicit := false }
  exact beginLabel_mapRanks
    { finished with
      cursor := finished.cursor.advance
      environments :=
        { e with role := .list { l with items := (s.finishItem e l).2, item }, blocks := [] } :: outer }
    finished.cursor.marker

/-! ## Tables -/

theorem beginSpanningCell_mapRanks (s : State) (table : OpenTable) :
    (s.mapRanks f).beginSpanningCell (ctx.withOffset offset) table
      = mapRanks f <$> s.beginSpanningCell ctx table := by
  simp only [beginSpanningCell, cursor_mapRanks, Context.source_withOffset, map_bind]
  refine bind_congr fun r => bind_congr fun r' => ?_
  exact openArgument_mapRanks { s with cursor := r'.2, inline? := some _ } _ _ _ _

theorem beginCell_mapRanks (s : State) (table : OpenTable) :
    (s.mapRanks f).beginCell (ctx.withOffset offset) table = mapRanks f <$> s.beginCell ctx table := by
  simp only [beginCell]
  rw [cursor_mapRanks]
  split
  · exact beginSpanningCell_mapRanks { s with cursor := _ } _
  · rfl

theorem nextRow_mapRanks (s : State) (table : OpenTable) :
    (s.mapRanks f).nextRow (ctx.withOffset offset) table = mapRanks f <$> s.nextRow ctx table := by
  simp only [nextRow, beginRow]
  exact beginCell_mapRanks { s with cursor := _ } _

theorem warnRagged_mapRanks (s : State) (environment : Text) (columns : Nat) (rows : List TableRow) :
    (s.mapRanks f).warnRagged environment columns rows
      = (s.warnRagged environment columns rows).mapRanks f := by
  unfold warnRagged
  induction rows generalizing s with
  | nil => rfl
  | cons r rest ih =>
    rw [List.foldl_cons, List.foldl_cons, ← ih]
    split
    · rw [warn_mapRanks (by simp [Degradation.code])]
    · rfl

theorem closeTable_mapRanks (s : State) (table : OpenTable) :
    (s.mapRanks f).closeTable table = mapRanks f <$> s.closeTable table := by
  simp only [closeTable, cursor_mapRanks, map_bind]
  refine bind_congr fun after => ?_
  rw [warnRagged_mapRanks]
  exact congrArg Except.ok (addBlocks_mapRanks
    { s.warnRagged _ _ _ with cursor := after, inline? := none } [.table _ _])

theorem closeCell_mapRanks (s : State) (table : OpenTable) (content : Fragments) :
    (s.mapRanks f).closeCell (ctx.withOffset offset) table content
      = mapRanks f <$> s.closeCell ctx table content := by
  simp only [closeCell]
  rw [cursor_mapRanks]
  split
  · exact beginCell_mapRanks { s with cursor := s.cursor.advance } _
  · exact nextRow_mapRanks s _
  · exact closeTable_mapRanks s _

/-! ## Closing -/

/-- A heading gets the rank of its level under the offset. -/
theorem mapRanks_closeHeading (s : State) (command : Marker) (level : Nat) (content : Fragments) :
    (s.closeHeading ctx command level content).mapRanks f
      = ({ s.mapRanks f with cursor := s.cursor.advance, inline? := none } : State).addBlocks
          [.heading ((NodeInfo.span command.token.start s.cursor.advance.lastStop).withRank
              (f (.of ctx.settings.headingLevelOffset level)))
            (f (.of ctx.settings.headingLevelOffset level)).level content.finish] := by
  have hadded := addBlocks_mapRanks (f := f)
    { s with cursor := s.cursor.advance, inline? := none }
    [.heading ((NodeInfo.span command.token.start s.cursor.advance.lastStop).withRank
        (.of ctx.settings.headingLevelOffset level))
      (Rank.of ctx.settings.headingLevelOffset level).level content.finish]
  -- What is said about the level is left out, so it makes no difference whether something is.
  have hwarn : ∀ (t : State) (requested : Int) (clamped : Nat) (name : Text) (token : Token),
      (t.warnAt (.headingLevelClamped requested clamped name) token).mapRanks f = t.mapRanks f :=
    fun _ _ _ _ _ => rfl
  simp only [List.map_cons, List.map_nil, Block.mapRanks] at hadded
  refine Eq.trans ?_ hadded.symm
  simp only [closeHeading]
  split
  · rw [hwarn]
    rfl
  · rfl

/-- A heading is closed alike but for its rank, which the map carries over. -/
theorem closeHeading_mapRanks (hf : Rank.Carries f ctx.settings.headingLevelOffset offset) (s : State)
    (command : Marker) {level : Nat} (hlevel : 1 ≤ level ∧ level ≤ 3) (content : Fragments) :
    ((s.mapRanks f).closeHeading (ctx.withOffset offset) command level content).mapRanks id
      = (s.closeHeading ctx command level content).mapRanks f := by
  have hrank : f (.of ctx.settings.headingLevelOffset level) = .of offset level :=
    hf level hlevel.1 hlevel.2
  rw [mapRanks_closeHeading, mapRanks_closeHeading, mapRanks_mapRanks, hrank]
  rfl

theorem closeLabel_mapRanks (s : State) (content : Fragments) :
    (s.mapRanks f).closeLabel content = (s.closeLabel content).mapRanks f := by
  simp only [closeLabel, environments_mapRanks]
  cases he : s.environments with
  | nil => simp [mapRanks, he]
  | cons e outer => simp [mapRanks, he, OpenEnvironment.mapRanks]

theorem closeParagraph_mapRanks (s : State) (start : Nat) (content : Fragments) :
    (s.mapRanks f).closeParagraph start content = (s.closeParagraph start content).mapRanks f := by
  simp only [closeParagraph]
  split
  · rfl
  · exact addBlocks_mapRanks { s with inline? := none } [.paragraph _ _]

/-- What is alike as it stands is alike without the reports on levels. -/
theorem mapRanks_id_of_eq {x x' : Except Failure State} (h : x' = mapRanks f <$> x) :
    mapRanks id <$> x' = mapRanks f <$> x := by
  rw [h, ← LawfulFunctor.comp_map]
  congr 1
  funext s
  exact mapRanks_mapRanks f id s

theorem closeInline_mapRanks (hf : Rank.Carries f ctx.settings.headingLevelOffset offset) (s : State)
    {i : OpenInline} (hline : i.line.InRange) :
    mapRanks id <$> (s.mapRanks f).closeInline (ctx.withOffset offset) i
      = mapRanks f <$> s.closeInline ctx i := by
  simp only [closeInline]
  rw [cursor_mapRanks]
  split
  · refine mapRanks_id_of_eq ?_
    split
    · exact openKeptBraces_mapRanks { s with cursor := s.cursor.advance } _
    · rfl
  · exact mapRanks_id_of_eq rfl
  · cases hl : i.line with
    | paragraph start =>
      exact mapRanks_id_of_eq (congrArg Except.ok (closeParagraph_mapRanks s start _))
    | heading command level opener =>
      exact congrArg Except.ok (closeHeading_mapRanks hf s command (hline _ _ _ hl) _)
    | label item opener => exact mapRanks_id_of_eq (congrArg Except.ok (closeLabel_mapRanks s _))
    | cell table => exact mapRanks_id_of_eq (closeCell_mapRanks s table _)

theorem closeEnvironment_mapRanks (s : State) (e : OpenEnvironment) (outer : List OpenEnvironment) :
    (s.mapRanks f).closeEnvironment (e.mapRanks f) (outer.map (OpenEnvironment.mapRanks f))
      = (s.closeEnvironment e outer).mapRanks f := by
  have hadd := addBlocks_mapRanks (f := f)
    { s with cursor := s.cursor.advance, environments := outer }
  obtain ⟨marker, role, blocks⟩ := e
  cases role with
  | inPlace => exact hadd blocks
  | float => exact hadd blocks
  | quote =>
    have hquote := hadd [.quote (.span marker.token.start s.cursor.advance.lastStop) blocks.reverse]
    simp only [List.map_cons, List.map_nil, Block.mapRanks, Block.mapAllRanks_eq_map,
      List.map_reverse] at hquote
    exact hquote
  | list l =>
    let e : OpenEnvironment := ⟨marker, .list l, blocks⟩
    have hlist := addBlocks_mapRanks (f := f)
      { (s.finishItem e l).1 with cursor := s.cursor.advance, environments := outer }
      [.list (.span marker.token.start s.cursor.advance.lastStop) l.ordered
        (s.finishItem e l).2.reverse]
    simp only [List.map_cons, List.map_nil, Block.mapRanks, ListItem.mapAllRanks_eq_map,
      List.map_reverse] at hlist
    have hfinish := finishItem_mapRanks (f := f) s e l
    simp only [closeEnvironment, OpenEnvironment.mapRanks, Role.mapRanks] at hfinish ⊢
    rw [hfinish]
    exact hlist

/-! ## Opening -/

theorem beginHeading_mapRanks (s : State) (level : Nat) :
    (s.mapRanks f).beginHeading level = mapRanks f <$> s.beginHeading level := by
  simp only [beginHeading, cursor_mapRanks, depth_mapRanks, map_bind]
  rfl

theorem takeCode_mapRanks (s : State) (c : Cursor) (begun : Marker) :
    (s.mapRanks f).takeCode c begun = mapRanks f <$> s.takeCode c begun := by
  simp only [takeCode, map_bind]
  refine bind_congr fun after => congrArg Except.ok ?_
  exact addBlocks_mapRanks { s with cursor := after } [.code _ _ _]

theorem skipComment_mapRanks (s : State) (c : Cursor) (begun : Marker) :
    (s.mapRanks f).skipComment c begun = mapRanks f <$> s.skipComment c begun := by
  simp only [skipComment, map_bind]
  rfl

theorem takeMathEnvironment_mapRanks (s : State) (c : Cursor) (begun : Marker) (aligned : Bool) :
    (s.mapRanks f).takeMathEnvironment (ctx.withOffset offset) c begun aligned
      = mapRanks f <$> s.takeMathEnvironment ctx c begun aligned := by
  simp only [takeMathEnvironment]
  rw [Context.source_withOffset]
  split
  · exact congrArg Except.ok (addBlocks_mapRanks { s with cursor := _ } [.math _ _ _])
  · rfl

theorem beginTable_mapRanks (s : State) (c : Cursor) (begun : Marker) :
    (s.mapRanks f).beginTable (ctx.withOffset offset) c begun
      = mapRanks f <$> s.beginTable ctx c begun := by
  simp only [beginTable, skipArguments, Context.source_withOffset, map_bind]
  exact bind_congr fun c => beginCell_mapRanks { s with cursor := c } _

theorem beginInPlace_mapRanks (s : State) (c : Cursor) (begun : Marker) :
    (s.mapRanks f).beginInPlace (ctx.withOffset offset) c begun
      = mapRanks f <$> s.beginInPlace ctx c begun := by
  simp only [beginInPlace, skipArguments, Context.source_withOffset, map_bind]
  rfl

theorem beginEnvironment_mapRanks (s : State) :
    (s.mapRanks f).beginEnvironment (ctx.withOffset offset)
      = mapRanks f <$> s.beginEnvironment ctx := by
  simp only [beginEnvironment, cursor_mapRanks, depth_mapRanks, map_bind]
  refine bind_congr fun _ => ?_
  split
  · rfl
  · rfl
  · exact beginTable_mapRanks s _ _
  · rfl
  · exact takeCode_mapRanks s _ _
  · exact skipComment_mapRanks s _ _
  · rfl
  · exact takeMathEnvironment_mapRanks s _ _ false
  · exact takeMathEnvironment_mapRanks s _ _ true
  · exact beginInPlace_mapRanks s _ _
  · rw [warnAt, warn_mapRanks (by simp [Degradation.code])]
    exact beginInPlace_mapRanks _ _ _

theorem takeDisplayMath_mapRanks (s : State) :
    (s.mapRanks f).takeDisplayMath (ctx.withOffset offset)
      = mapRanks f <$> s.takeDisplayMath ctx := by
  simp only [takeDisplayMath, cursor_mapRanks, Context.source_withOffset, map_bind]
  refine bind_congr fun r => congrArg Except.ok ?_
  split
  · rfl
  · exact addBlocks_mapRanks { s with cursor := r.2 } [.math _ _ _]

theorem beginParagraph_mapRanks (s : State) :
    (s.mapRanks f).beginParagraph (ctx.withOffset offset) = mapRanks f <$> s.beginParagraph ctx := by
  have hsame : Surround.paragraph.endsAt (s.mapRanks f).inList (s.mapRanks f).cursor.current
      = Surround.paragraph.endsAt s.inList s.cursor.current := by
    rw [inList_mapRanks, cursor_mapRanks]
  cases hends : Surround.paragraph.endsAt s.inList s.cursor.current with
  | true =>
    rw [beginParagraph_of_endsAt hends, beginParagraph_of_endsAt (hsame.trans hends)]
    rfl
  | false =>
    rw [beginParagraph_of_not_endsAt hends, beginParagraph_of_not_endsAt (hsame.trans hends)]
    exact takeToken_mapRanks
      { s with inline? := some { line := .paragraph s.cursor.current.start } } _

theorem takeOtherCommand_mapRanks (s : State) :
    (s.mapRanks f).takeOtherCommand (ctx.withOffset offset)
      = mapRanks f <$> s.takeOtherCommand ctx := by
  simp only [takeOtherCommand, cursor_mapRanks, droppedCount?_mapRanks, Context.source_withOffset]
  split
  · exact beginHeading_mapRanks s _
  · rw [map_bind]
    rfl
  · exact beginParagraph_mapRanks s

theorem takeBlockCommand_mapRanks (s : State) :
    (s.mapRanks f).takeBlockCommand (ctx.withOffset offset)
      = mapRanks f <$> s.takeBlockCommand ctx := by
  have hother : (s.mapRanks f).takeOtherCommand (ctx.withOffset offset)
      = mapRanks f <$> s.takeOtherCommand ctx := takeOtherCommand_mapRanks s
  simp only [takeBlockCommand]
  rw [environments_mapRanks, cursor_mapRanks]
  cases s.environments with
  | nil => exact hother
  | cons e outer =>
    obtain ⟨marker, role, blocks⟩ := e
    cases role with
    | list l =>
      simp only [List.map_cons, OpenEnvironment.mapRanks, Role.mapRanks]
      split
      · exact beginItem_mapRanks s ⟨marker, .list l, blocks⟩ outer l
      · exact hother
    | inPlace | float | quote => exact hother

theorem beginBlock_mapRanks (s : State) :
    (s.mapRanks f).beginBlock (ctx.withOffset offset) = mapRanks f <$> s.beginBlock ctx := by
  simp only [beginBlock]
  rw [cursor_mapRanks]
  split
  · exact beginEnvironment_mapRanks s
  · split
    · exact takeDisplayMath_mapRanks s
    · exact beginParagraph_mapRanks s
  · exact takeBlockCommand_mapRanks s
  · exact beginParagraph_mapRanks s

theorem endEnvironment_mapRanks (s : State) :
    (s.mapRanks f).endEnvironment = mapRanks f <$> s.endEnvironment := by
  simp only [endEnvironment]
  rw [environments_mapRanks, cursor_mapRanks]
  cases s.environments with
  | nil => rfl
  | cons e outer =>
    have htext : (e.mapRanks f).marker.text = e.marker.text := rfl
    simp only [List.map_cons]
    rw [htext]
    split
    · exact congrArg Except.ok (closeEnvironment_mapRanks s e outer)
    · rfl

theorem endDocument_mapRanks (s : State) : (s.mapRanks f).endDocument = s.endDocument := by
  simp only [endDocument, environments_mapRanks]
  cases s.environments <;> rfl

end State

end Parse

end LatexMarkdown
