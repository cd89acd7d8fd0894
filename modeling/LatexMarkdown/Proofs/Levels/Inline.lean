import LatexMarkdown.Proofs.Levels.Tree
import LatexMarkdown.Proofs.Running
/-!
  States with other headings, and inline content read in them.

  `State.mapRanks` maps the ranks of all headings that are finished, and leaves out the reports of
  levels moved into range.  Nothing that reading goes by is changed: the cursor, the open inline
  content, how deep it stands, and what is open around it.  So every reader of inline content comes
  to the same in a mapped state, with the new state mapped or with the same failure, whatever the
  offset is: no level is looked at before a heading is closed.
-/
namespace LatexMarkdown

/-- Does it report anything but a heading level moved into range? -/
def Diagnostic.isUnranked (d : Diagnostic) : Bool := d.cause.code != "heading-level-clamped"

namespace Parse

/-- The same with another offset of heading levels. -/
def Context.withOffset (ctx : Context) (offset : Int) : Context :=
  { ctx with settings := { ctx.settings with headingLevelOffset := offset } }

@[simp] theorem Context.source_withOffset (ctx : Context) (offset : Int) :
    (ctx.withOffset offset).source = ctx.source := rfl

/-! ## States -/

/-- The same list with the ranks of the headings in finished items mapped. -/
def OpenList.mapRanks (f : Rank → Rank) (l : OpenList) : OpenList :=
  { l with items := l.items.map (ListItem.mapRanks f) }

/-- The same role with the ranks of the headings in finished items mapped. -/
def Role.mapRanks (f : Rank → Rank) : Role → Role
  | inPlace => inPlace
  | float => float
  | quote => quote
  | list l => list (l.mapRanks f)

/-- The same environment with the ranks of finished headings mapped. -/
def OpenEnvironment.mapRanks (f : Rank → Rank) (e : OpenEnvironment) : OpenEnvironment :=
  { e with role := e.role.mapRanks f, blocks := e.blocks.map (Block.mapRanks f) }

variable {f : Rank → Rank}

@[simp] theorem Role.isList_mapRanks (r : Role) : (r.mapRanks f).isList = r.isList := by
  cases r <;> rfl

@[simp] theorem Role.isFloat_mapRanks (r : Role) : (r.mapRanks f).isFloat = r.isFloat := by
  cases r <;> rfl

@[simp] theorem Role.withLabel_mapRanks (label : List Inline) (r : Role) :
    (r.mapRanks f).withLabel label = (r.withLabel label).mapRanks f := by
  cases r <;> rfl

namespace State

/-- The same state with the ranks of finished headings mapped, and without reports of levels moved
into range. -/
def mapRanks (f : Rank → Rank) (s : State) : State :=
  { s with
    blocks := s.blocks.map (Block.mapRanks f)
    environments := s.environments.map (OpenEnvironment.mapRanks f)
    diagnostics := s.diagnostics.filter Diagnostic.isUnranked }

variable {ctx : Context} {offset : Int} {s : State} {i : OpenInline}

/-! ### What reading goes by -/

@[simp] theorem cursor_mapRanks (s : State) : (s.mapRanks f).cursor = s.cursor := rfl

@[simp] theorem inline?_mapRanks (s : State) : (s.mapRanks f).inline? = s.inline? := rfl

@[simp] theorem environments_mapRanks (s : State) :
    (s.mapRanks f).environments = s.environments.map (OpenEnvironment.mapRanks f) := rfl

@[simp] theorem depth_mapRanks (s : State) : (s.mapRanks f).depth = s.depth := by
  simp only [depth, environments_mapRanks, inline?_mapRanks, List.length_map]

@[simp] theorem inList_mapRanks (s : State) : (s.mapRanks f).inList = s.inList := by
  unfold inList
  cases he : s.environments <;> simp [he, OpenEnvironment.mapRanks]

@[simp] theorem inFloat_mapRanks (s : State) : (s.mapRanks f).inFloat = s.inFloat := by
  unfold inFloat
  cases he : s.environments <;> simp [he, OpenEnvironment.mapRanks]

@[simp] theorem droppedCount?_mapRanks (s : State) (name : Text) :
    (s.mapRanks f).droppedCount? name = s.droppedCount? name := by
  rw [droppedCount?, droppedCount?, inFloat_mapRanks]

/-! ### Small changes -/

theorem mapRanks_mapRanks (f g : Rank → Rank) (s : State) :
    (s.mapRanks f).mapRanks g = s.mapRanks (g ∘ f) := by
  have hrole : ∀ r : Role, (r.mapRanks f).mapRanks g = r.mapRanks (g ∘ f) := by
    intro r
    cases r <;> simp only [Role.mapRanks, OpenList.mapRanks, ListItem.map_mapRanks]
  have henvironments : ∀ es : List OpenEnvironment,
      (es.map (OpenEnvironment.mapRanks f)).map (OpenEnvironment.mapRanks g)
        = es.map (OpenEnvironment.mapRanks (g ∘ f)) := by
    intro es
    refine List.map_map.trans (List.map_congr_left fun e _ => ?_)
    simp only [Function.comp_apply, OpenEnvironment.mapRanks, hrole, Block.map_mapRanks]
  simp only [mapRanks, Block.map_mapRanks, henvironments, List.filter_filter, Bool.and_self]

theorem warn_mapRanks {cause : Degradation} (hcause : cause.code ≠ "heading-level-clamped")
    (s : State) (start stop : Nat) :
    (s.mapRanks f).warn cause start stop = (s.warn cause start stop).mapRanks f := by
  have hkept : Diagnostic.isUnranked ⟨cause, start, stop⟩ = true := by
    simpa [Diagnostic.isUnranked] using hcause
  simp only [warn, mapRanks, List.filter_cons_of_pos hkept]

theorem addBlocks_mapRanks (s : State) (blocks : List Block) :
    (s.mapRanks f).addBlocks (blocks.map (Block.mapRanks f))
      = (s.addBlocks blocks).mapRanks f := by
  unfold addBlocks
  cases he : s.environments with
  | nil => simp [mapRanks, he]
  | cons e outer => simp [mapRanks, he, OpenEnvironment.mapRanks]

/-! ## Braces and arguments -/

theorem openBrace_mapRanks (s : State) (i : OpenInline) (kept : Bool) :
    (s.mapRanks f).openBrace i kept = mapRanks f <$> s.openBrace i kept := by
  simp only [openBrace, cursor_mapRanks, depth_mapRanks, map_bind]
  rfl

theorem openKeptBraces_mapRanks (s : State) (i : OpenInline) :
    (s.mapRanks f).openKeptBraces i = mapRanks f <$> s.openKeptBraces i := by
  simp only [openKeptBraces]
  rw [cursor_mapRanks]
  split
  · exact openBrace_mapRanks { s with inline? := some i } i true
  · rfl

theorem openArgument_mapRanks (s : State) (i : OpenInline) (owner : Marker) (flaw : Flaw)
    (purpose : Purpose) :
    (s.mapRanks f).openArgument i owner flaw purpose
      = mapRanks f <$> s.openArgument i owner flaw purpose := by
  simp only [openArgument, cursor_mapRanks, depth_mapRanks, map_bind]
  rfl

/-! ## Commands -/

theorem takeUnknownCommand_mapRanks (s : State) (i : OpenInline) :
    (s.mapRanks f).takeUnknownCommand i = mapRanks f <$> s.takeUnknownCommand i := by
  let t := s.cursor.current
  simp only [takeUnknownCommand, cursor_mapRanks, warnAt]
  rw [warn_mapRanks (by simp [Degradation.code])]
  exact openKeptBraces_mapRanks
    { s.warn (.unknownCommand t.text) t.start t.stop with cursor := s.cursor.advance } _

theorem dropCommand_mapRanks (s : State) (i : OpenInline) (count : Nat) :
    (s.mapRanks f).dropCommand (ctx.withOffset offset) i count
      = mapRanks f <$> s.dropCommand ctx i count := by
  simp only [dropCommand, cursor_mapRanks, Context.source_withOffset, map_bind]
  rfl

theorem takeLink_mapRanks (s : State) (i : OpenInline) :
    (s.mapRanks f).takeLink (ctx.withOffset offset) i = mapRanks f <$> s.takeLink ctx i := by
  simp only [takeLink, cursor_mapRanks, Context.source_withOffset, map_bind]
  refine bind_congr fun r => ?_
  exact openArgument_mapRanks { s with cursor := r.2 } i _ _ _

theorem takeUrl_mapRanks (s : State) (i : OpenInline) :
    (s.mapRanks f).takeUrl (ctx.withOffset offset) i = mapRanks f <$> s.takeUrl ctx i := by
  simp only [takeUrl, cursor_mapRanks, Context.source_withOffset, map_bind]
  rfl

theorem takeVerbatim_mapRanks (s : State) (i : OpenInline) :
    (s.mapRanks f).takeVerbatim i = mapRanks f <$> s.takeVerbatim i := by
  simp only [takeVerbatim]
  rw [cursor_mapRanks]
  split <;> rfl

theorem takeCommand_mapRanks (s : State) (i : OpenInline) :
    (s.mapRanks f).takeCommand (ctx.withOffset offset) i = mapRanks f <$> s.takeCommand ctx i := by
  simp only [takeCommand]
  rw [cursor_mapRanks]
  split
  · rfl
  split
  · exact dropCommand_mapRanks s i _
  · exact openArgument_mapRanks { s with cursor := s.cursor.advance } i _ _ _
  split
  · rfl
  split
  · exact takeLink_mapRanks s i
  split
  · exact takeUrl_mapRanks s i
  split
  · exact takeVerbatim_mapRanks s i
  · exact takeUnknownCommand_mapRanks s i

/-! ## Tokens -/

theorem takeComment_mapRanks (s : State) (i : OpenInline) :
    (s.mapRanks f).takeComment i = (s.takeComment i).mapRanks f := by
  simp only [takeComment]
  rw [cursor_mapRanks]
  split
  · rfl
  · split <;> rfl

theorem takeMath_mapRanks (s : State) (i : OpenInline) :
    (s.mapRanks f).takeMath (ctx.withOffset offset) i = mapRanks f <$> s.takeMath ctx i := by
  simp only [takeMath]
  rw [cursor_mapRanks, Context.source_withOffset]
  split
  · rfl
  · rw [map_bind]
    rfl

theorem takeText_mapRanks (s : State) (i : OpenInline) :
    (s.mapRanks f).takeText i = (s.takeText i).mapRanks f := by
  simp only [takeText, warnAt]
  rw [cursor_mapRanks]
  split
  · rw [warn_mapRanks (by simp [Degradation.code])]
    rfl
  · rfl

/-- A token of inline content is read alike in a mapped state, under any offset. -/
theorem takeToken_mapRanks (s : State) (i : OpenInline) :
    (s.mapRanks f).takeToken (ctx.withOffset offset) i = mapRanks f <$> s.takeToken ctx i := by
  simp only [takeToken, cursor_mapRanks]
  cases s.cursor.marker.token.kind
  case endOfFile | envEnd | envBegin | groupClose => rfl
  case newLine | lineBreak => rfl
  case unknown | bracketOpen | bracketClose | alignmentTab => rfl
  case text | rawText => exact congrArg Except.ok (takeText_mapRanks s i)
  case comment => exact congrArg Except.ok (takeComment_mapRanks s i)
  case groupOpen => exact openBrace_mapRanks s i false
  case mathInline | mathDisplay => exact takeMath_mapRanks s i
  case command => exact takeCommand_mapRanks s i

end State

end Parse

end LatexMarkdown
