import LatexMarkdown.Proofs.Likeness.Reading
import Mathlib.Data.List.Forall2
/-!
  States that are alike.

  `Likeness.Alike` compares everything a state holds but its cursor and its diagnostics: the same
  constructs are open, and what was made so far is related.  So whatever decides how reading goes
  on is the same in both states: what surrounds the current token, how deep it stands, which
  commands are dropped.  `Likeness.Stands` adds the cursors.
-/
namespace LatexMarkdown.Parse.Likeness

variable {R : Likeness}

/-! ## Parts of a state -/

/-- Inline content being read. -/
structure OfRun (R : Likeness) (r r' : Run) : Prop where
  fragments : R.fragments r.fragments r'.fragments
  braces : List.Forall₂ (fun b b' : Brace => b'.kept = b.kept) r.braces r'.braces

/-- An argument being read. -/
structure OfArgument (R : Likeness) (a a' : OpenArgument) : Prop where
  purpose : Purpose.Alike R.text a.purpose a'.purpose
  outer : R.OfRun a.outer a'.outer

/-- A table being read. -/
structure OfTable (R : Likeness) (t t' : OpenTable) : Prop where
  name : t'.marker.text = t.marker.text
  rows : R.rows t.rows t'.rows
  cells : R.cells t.cells t'.cells
  span : R.count t.span t'.span

/-- A line of inline content. -/
inductive OfLine (R : Likeness) : Line → Line → Prop
  | paragraph (start start' : Nat) : OfLine R (.paragraph start) (.paragraph start')
  | heading (command command' : Marker) (level : Nat) (opener opener' : Marker) :
      OfLine R (.heading command level opener) (.heading command' level opener')
  | label (item item' opener opener' : Marker) : OfLine R (.label item opener) (.label item' opener')
  | cell {t t' : OpenTable} (h : R.OfTable t t') : OfLine R (.cell t) (.cell t')

/-- The open inline content. -/
structure OfContent (R : Likeness) (i i' : OpenInline) : Prop where
  line : R.OfLine i.line i'.line
  run : R.OfRun i.run i'.run
  arguments : List.Forall₂ R.OfArgument i.arguments i'.arguments

/-- A list being read. -/
structure OfList (R : Likeness) (l l' : OpenList) : Prop where
  ordered : l'.ordered = l.ordered
  items : R.items l.items l'.items
  implicit : l'.item.implicit = l.item.implicit
  label : R.inlines l.item.label l'.item.label

/-- What the blocks of an environment are for. -/
inductive OfRole (R : Likeness) : Role → Role → Prop
  | inPlace : OfRole R .inPlace .inPlace
  | float : OfRole R .float .float
  | quote : OfRole R .quote .quote
  | list {l l' : OpenList} (h : R.OfList l l') : OfRole R (.list l) (.list l')

/-- An environment being read. -/
structure OfEnvironment (R : Likeness) (e e' : OpenEnvironment) : Prop where
  name : e'.marker.text = e.marker.text
  role : R.OfRole e.role e'.role
  blocks : R.blocks e.blocks e'.blocks

/-- Two states in which the same constructs are open, and what was made is related. -/
structure Alike (R : Likeness) (s s' : State) : Prop where
  blocks : R.blocks s.blocks s'.blocks
  environments : List.Forall₂ R.OfEnvironment s.environments s'.environments
  inline? : Option.Rel R.OfContent s.inline? s'.inline?

variable {i i' : OpenInline} {s s' : State} {c c' : Cursor}

/-! ## What decides how reading goes on -/

/-- The same surrounding, if opened elsewhere. -/
inductive OfSurround : Surround → Surround → Prop
  | paragraph : OfSurround .paragraph .paragraph
  | group (opener opener' : Marker) : OfSurround (.group opener) (.group opener')
  | label (opener opener' : Marker) : OfSurround (.label opener) (.label opener')
  | cell : OfSurround .cell .cell

theorem OfSurround.eq_cell_iff {u u' : Surround} (h : OfSurround u u') : u' = .cell ↔ u = .cell := by
  cases h <;> simp

/-- Inline content ends at the same tokens. -/
theorem OfSurround.endsAt {u u' : Surround} (h : OfSurround u u') (hc : R.At c c') (inList : Bool) :
    u'.endsAt inList c'.current = u.endsAt inList c.current := by
  have hk := hc.kind
  cases h with
  | group => rw [Surround.endsAt, Surround.endsAt, hk]
  | label => rw [Surround.endsAt, Surround.endsAt, hk]
  | cell => rw [Surround.endsAt, Surround.endsAt, hk]
  | paragraph =>
    obtain ⟨hend, hend', -⟩ | ⟨-, hs, -⟩ := hc.cases
    · rw [Surround.endsAt, Surround.endsAt, hend, hend']
    · rw [Surround.endsAt, Surround.endsAt, hk, hs.isBlankLine, hs.opensDisplay]
      cases hkind : c.current.kind <;> try rfl
      rw [hs.name (by rw [hkind]; decide) (by rw [hkind]; decide)]

namespace OfContent

theorem inTable (h : R.OfContent i i') : i'.inTable = i.inTable := by
  have hline := h.line
  rw [OpenInline.inTable, OpenInline.inTable]
  generalize i.line = l, i'.line = l' at hline
  cases hline <;> rfl

theorem surround (h : R.OfContent i i') : OfSurround i.surround i'.surround := by
  have hline := h.line
  have hbraces := h.run.braces
  have harguments := h.arguments
  rw [OpenInline.surround, OpenInline.surround]
  generalize i.run.braces = bs, i'.run.braces = bs' at hbraces
  generalize i.arguments = as, i'.arguments = as' at harguments
  generalize i.line = l, i'.line = l' at hline
  cases hbraces with
  | cons => exact .group _ _
  | nil =>
    cases harguments with
    | cons => exact .group _ _
    | nil =>
      cases hline with
      | paragraph => exact .paragraph
      | heading => exact .group _ _
      | label => exact .label _ _
      | cell => exact .cell

theorem depth (h : R.OfContent i i') : i'.depth = i.depth := by
  have hline : i'.line.depth = i.line.depth := by
    have hline := h.line
    generalize i.line = l, i'.line = l' at hline
    cases hline <;> rfl
  have hsum : ∀ {as as' : List OpenArgument}, List.Forall₂ R.OfArgument as as' →
      as'.foldr (fun a n => a.outer.braces.length + 1 + n) 0
        = as.foldr (fun a n => a.outer.braces.length + 1 + n) 0 := by
    intro as as' has
    induction has with
    | nil => rfl
    | cons ha _ ih => rw [List.foldr_cons, List.foldr_cons, ih, ha.outer.braces.length_eq]
  rw [OpenInline.depth, OpenInline.depth, hline, hsum h.arguments, h.run.braces.length_eq]

theorem droppedCount? (h : R.OfContent i i') (name : Text) :
    i'.droppedCount? name = i.droppedCount? name := by
  rw [OpenInline.droppedCount?, OpenInline.droppedCount?]
  simp only [h.surround.eq_cell_iff]

theorem withFragments (h : R.OfContent i i') {f f' : Fragments} (hf : R.fragments f f') :
    R.OfContent (i.withFragments f) (i'.withFragments f') :=
  ⟨h.line, ⟨hf, h.run.braces⟩, h.arguments⟩

end OfContent

theorem OfRole.isList {r r' : Role} (h : R.OfRole r r') : r'.isList = r.isList := by
  cases h <;> rfl

theorem OfRole.isFloat {r r' : Role} (h : R.OfRole r r') : r'.isFloat = r.isFloat := by
  cases h <;> rfl

theorem OfRole.withLabel {r r' : Role} (h : R.OfRole r r') {ns ns' : List Inline}
    (hn : R.inlines ns ns') : R.OfRole (r.withLabel ns) (r'.withLabel ns') := by
  cases h with
  | list hl => exact .list ⟨hl.ordered, hl.items, hl.implicit, hn⟩
  | inPlace => exact .inPlace
  | float => exact .float
  | quote => exact .quote

namespace Alike

theorem inline?_eq_none (h : R.Alike s s') (hn : s.inline? = none) : s'.inline? = none := by
  have hinline := h.inline?
  rw [hn] at hinline
  generalize s'.inline? = x at hinline
  cases hinline with
  | none => rfl

theorem exists_content (h : R.Alike s s') (hi : s.inline? = some i) :
    ∃ i', s'.inline? = some i' ∧ R.OfContent i i' := by
  have hinline := h.inline?
  rw [hi] at hinline
  generalize s'.inline? = x at hinline
  cases hinline with
  | some hii => exact ⟨_, rfl, hii⟩

theorem depth (h : R.Alike s s') : s'.depth = s.depth := by
  have hinline : (s'.inline?.map OpenInline.depth) = s.inline?.map OpenInline.depth := by
    have hi := h.inline?
    generalize s.inline? = x, s'.inline? = x' at hi
    cases hi with
    | none => rfl
    | some hi => rw [Option.map_some, Option.map_some, hi.depth]
  rw [State.depth, State.depth, h.environments.length_eq, hinline]

theorem inList (h : R.Alike s s') : s'.inList = s.inList := by
  have he := h.environments
  rw [State.inList, State.inList]
  generalize s.environments = es, s'.environments = es' at he
  cases he with
  | nil => rfl
  | cons he _ => exact he.role.isList

theorem inFloat (h : R.Alike s s') : s'.inFloat = s.inFloat := by
  have he := h.environments
  rw [State.inFloat, State.inFloat]
  generalize s.environments = es, s'.environments = es' at he
  cases he with
  | nil => rfl
  | cons he _ => exact he.role.isFloat

theorem droppedCount? (h : R.Alike s s') (name : Text) : s'.droppedCount? name = s.droppedCount? name := by
  rw [State.droppedCount?, State.droppedCount?, h.inFloat]

/-! ## What changes a state -/

theorem warn (h : R.Alike s s') (cause cause' : Degradation) (a b a' b' : Nat) :
    R.Alike (s.warn cause a b) (s'.warn cause' a' b') :=
  ⟨h.blocks, h.environments, h.inline?⟩

/-- The same environments are open. -/
theorem environments_cases (h : R.Alike s s') :
    (s.environments = [] ∧ s'.environments = []) ∨
      ∃ e outer e' outer', s.environments = e :: outer ∧ s'.environments = e' :: outer' ∧
        R.OfEnvironment e e' ∧ List.Forall₂ R.OfEnvironment outer outer' := by
  have he := h.environments
  generalize s.environments = es, s'.environments = es' at he
  cases he with
  | nil => exact .inl ⟨rfl, rfl⟩
  | cons he houter => exact .inr ⟨_, _, _, _, rfl, rfl, he, houter⟩

theorem addBlocks (h : R.Alike s s') {bs bs' : List Block} (hb : R.blocks bs bs') :
    R.Alike (s.addBlocks bs) (s'.addBlocks bs') := by
  rw [State.addBlocks, State.addBlocks]
  obtain ⟨he, he'⟩ | ⟨e, outer, e', outer', he, he', hee, houter⟩ := h.environments_cases
  · rw [he, he']
    exact ⟨R.blocks_append hb h.blocks, .nil, h.inline?⟩
  · rw [he, he']
    exact ⟨h.blocks, .cons ⟨hee.name, hee.role, R.blocks_append hb hee.blocks⟩ houter, h.inline?⟩

end Alike

/-- Adding no blocks changes nothing. -/
theorem addBlocks_nil (s : State) : s.addBlocks [] = s := by
  rw [State.addBlocks]
  split
  · rfl
  · next e outer he => rw [List.nil_append, ← he]

/-- Two states that are alike, at places that are. -/
structure Stands (R : Likeness) (s s' : State) : Prop where
  alike : R.Alike s s'
  near : R.Near s.cursor s'.cursor
  along : s.inline?.isSome = true → ∃ b, R.Along b s.cursor s'.cursor

theorem Alike.stands {b : Bool} (h : R.Alike s s') (hc : R.Along b s.cursor s'.cursor) :
    R.Stands s s' :=
  ⟨h, hc.near, fun _ => ⟨b, hc⟩⟩

/-- At other places. -/
theorem Alike.withCursor (h : R.Alike s s') (c c' : Cursor) :
    R.Alike { s with cursor := c } { s' with cursor := c' } :=
  ⟨h.blocks, h.environments, h.inline?⟩

/-- In other inline content. -/
theorem Alike.withInline (h : R.Alike s s') (hi : R.OfContent i i') :
    R.Alike { s with inline? := some i } { s' with inline? := some i' } :=
  ⟨h.blocks, h.environments, .some hi⟩

/-- Between blocks. -/
theorem Alike.withoutInline (h : R.Alike s s') :
    R.Alike { s with inline? := none } { s' with inline? := none } :=
  ⟨h.blocks, h.environments, .none⟩

/-- In other inline content, at other places. -/
theorem Alike.inside {b : Bool} (h : R.Alike s s') (hi : R.OfContent i i') (hc : R.Along b c c') :
    R.Stands { s with cursor := c, inline? := some i } { s' with cursor := c', inline? := some i' } :=
  ((h.withCursor c c').withInline hi).stands hc

theorem Alike.gather {b : Bool} (h : R.Alike s s') (hi : R.OfContent i i') {f f' : Fragments}
    (hf : R.fragments f f') (hc : R.Along b c c') :
    R.Stands (s.gather i c f) (s'.gather i' c' f') :=
  h.inside (hi.withFragments hf) hc

theorem agree_checkDepth (depth : Nat) (marker marker' : Marker) :
    Agree (fun _ _ => True) (State.checkDepth depth marker) (State.checkDepth depth marker') := by
  rw [State.checkDepth, State.checkDepth]
  split
  · exact .error _ _
  · exact .ok trivial

end LatexMarkdown.Parse.Likeness
