import LatexMarkdown.Proofs.Levels.Block
import LatexMarkdown.Proofs.Numerals
import LatexMarkdown.Proofs.Spans
import LatexMarkdown.Proofs.Steps
import Mathlib.Data.List.Forall2
/-!
  What the offset of heading levels is for.

  Main statement: `parseDocument_headingLevelOffset`.  Under two offsets a source is read alike: both
  readings fail with the same error, or both give documents that only differ in the ranks of their
  headings, with the same reports but for those on levels.  Each rank is that of a level between one
  and three, moved by the offset and then into range.

  One reading is a picture of the other.  A step from a mapped state comes to the mapped state
  (`State.step_mapRanks`), so a run does (`State.outcome_mapRanks`), and both readings are pictures of
  the one without an offset (`Document.parse_mapRanks`).
-/
namespace LatexMarkdown

/-- Results that come to the same are the same failure, or both there. -/
theorem exists_of_map_eq_map {ε α β γ : Type} {f : α → γ} {g : β → γ} {x : Except ε α}
    {y : Except ε β} (h : f <$> x = g <$> y) :
    (∃ e, x = .error e ∧ y = .error e) ∨ ∃ a b, x = .ok a ∧ y = .ok b ∧ f a = g b := by
  cases x with
  | error e =>
    cases y with
    | error e' =>
      cases h
      exact .inl ⟨e, rfl, rfl⟩
    | ok b => cases h
  | ok a =>
    cases y with
    | error e => cases h
    | ok b => exact .inr ⟨a, b, rfl, rfl, Except.ok.inj h⟩

/-! ## Steps -/

namespace Parse

variable {f : Rank → Rank} {ctx : Context} {offset : Int} {s t : State}

/-- The level of an open heading is one that its command stands for. -/
theorem Change.inRange (h : Change ctx s t) (hs : ∀ i ∈ s.inline?, i.line.InRange) :
    ∀ i ∈ t.inline?, i.line.InRange := by
  -- A change leaves the inline content as it is, leaves none, or puts other content there.
  have hsame : t.inline? = s.inline? → ∀ i ∈ t.inline?, i.line.InRange := fun heq => heq ▸ hs
  have hnone : t.inline? = none → ∀ i ∈ t.inline?, i.line.InRange := by
    intro heq
    simp [heq]
  have hinside : ∀ j, t.inline? = some j → j.line.InRange → ∀ i ∈ t.inline?, i.line.InRange := by
    intro j heq hj i hi
    rw [heq] at hi
    exact Option.some.inj hi ▸ hj
  cases h with
  | skip | warn | beginEnvironment => exact hs
  | addLeaf => exact hsame (State.inline?_addBlocks _ _)
  | beginItem => exact hsame (State.inline?_finishItem _ _ _)
  | closeEnvironment => exact hsame (State.inline?_closeEnvironment _ _ _)
  | beginHeading hi hk hc ho hlevel =>
    refine hinside _ rfl fun command level opener hl => ?_
    cases hl
    exact headingLevel?_mem_range hlevel
  | beginLabel | beginParagraph | beginTable | nextCell | nextRow =>
    exact hinside _ rfl (by simp [Line.InRange, State.openCell])
  | gather hi | openBrace _ hi | closeBrace hi | closeArgument hi =>
    have hline := hs _ hi
    exact hinside _ rfl hline
  | openArgument hi hk hl =>
    have hline := hs _ hi
    refine hinside _ rfl ?_
    obtain rfl | ⟨table, span, -, rfl⟩ := hl
    · exact hline
    · simp [Line.InRange]
  | closeParagraph => exact hnone (State.inline?_closeParagraph _ _ _)
  | closeHeading =>
    refine hnone ?_
    simp only [State.closeHeading]
    split <;> simp [State.warnAt, State.warn]
  | closeLabel =>
    refine hnone ?_
    simp only [State.closeLabel]
    split <;> rfl
  | closeTable => exact hnone (State.inline?_addBlocks _ _)

namespace State

theorem takeBlock_mapRanks (s : State) :
    (s.mapRanks f).takeBlock (ctx.withOffset offset)
      = Option.map (mapRanks f) <$> s.takeBlock ctx := by
  let s' : State := { s with cursor := s.cursor.skipSpacing }
  simp only [takeBlock]
  rw [cursor_mapRanks]
  split
  · have hend := endDocument_mapRanks (f := f) s'
    show _ <$> (s'.mapRanks f).endDocument = _
    rw [hend, ← LawfulFunctor.comp_map]
    rfl
  · have hend := endEnvironment_mapRanks (f := f) s'
    show some <$> (s'.mapRanks f).endEnvironment = _
    rw [hend, ← LawfulFunctor.comp_map, ← LawfulFunctor.comp_map]
    rfl
  · have hbegin : (s'.mapRanks f).beginBlock (ctx.withOffset offset)
        = mapRanks f <$> s'.beginBlock ctx := beginBlock_mapRanks s'
    show some <$> (s'.mapRanks f).beginBlock _ = _
    rw [hbegin, ← LawfulFunctor.comp_map, ← LawfulFunctor.comp_map]
    rfl

/-- A step from a mapped state comes to the mapped state, or fails alike, under an offset that the
map carries the ranks over to. -/
theorem step_mapRanks (hf : Rank.Carries f ctx.settings.headingLevelOffset offset) (s : State)
    (hs : ∀ i ∈ s.inline?, i.line.InRange) :
    Option.map (mapRanks id) <$> (s.mapRanks f).step (ctx.withOffset offset)
      = Option.map (mapRanks f) <$> s.step ctx := by
  -- Both sides of what comes after the step are options of states, in the one order or the other.
  have hsome : ∀ (g : Rank → Rank) (x : Except Failure State),
      Option.map (mapRanks g) <$> (some <$> x) = some <$> (mapRanks g <$> x) := by
    intro g x
    rw [← LawfulFunctor.comp_map, ← LawfulFunctor.comp_map]
    rfl
  cases hi : s.inline? with
  | none =>
    simp only [step, inline?_mapRanks, hi]
    rw [takeBlock_mapRanks, ← LawfulFunctor.comp_map]
    congr 1
    funext next?
    cases next? with
    | none => rfl
    | some next => exact congrArg some (mapRanks_mapRanks f id next)
  | some i =>
    simp only [step, takeInline, inline?_mapRanks, inList_mapRanks, cursor_mapRanks, hi]
    split
    · rw [hsome, hsome, closeInline_mapRanks hf s (hs i hi)]
    · rw [hsome, hsome, mapRanks_id_of_eq (takeToken_mapRanks s i)]

end State

/-! ## Runs -/

/-- What a run comes to, with the ranks of headings mapped and without the reports on levels. -/
def mapOutcome (f : Rank → Rank) (r : List Block × List Diagnostic) : List Block × List Diagnostic :=
  (r.1.map (Block.mapRanks f), r.2.filter Diagnostic.isUnranked)

/-- Where one state is a picture of another, their runs come to a picture and what it is of, or fail
alike. -/
theorem State.outcome_mapRanks (hf : Rank.Carries f ctx.settings.headingLevelOffset offset)
    (h : t.mapRanks id = s.mapRanks f) (hline : ∀ i ∈ s.inline?, i.line.InRange)
    (hs : s.cursor.Terminated) (ht : t.cursor.Terminated) :
    mapOutcome id <$> t.outcome (ctx.withOffset offset) ht = mapOutcome f <$> s.outcome ctx hs := by
  -- Along the run, in which every step lowers the weight.
  induction hn : s.weight using Nat.strongRecOn generalizing s t with
  | ind n ih =>
  have hinline : t.inline? = s.inline? := by
    rw [← inline?_mapRanks t, h, inline?_mapRanks]
  have hstep : Option.map (mapRanks id) <$> t.step (ctx.withOffset offset)
      = Option.map (mapRanks f) <$> s.step ctx := by
    have hsame : Rank.Carries id (ctx.withOffset offset).settings.headingLevelOffset offset :=
      Rank.carries_id offset
    have hquiet := step_mapRanks hsame t (hinline ▸ hline)
    rw [h] at hquiet
    exact hquiet.symm.trans (step_mapRanks hf s hline)
  obtain ⟨failure, htstep, hsstep⟩ | ⟨next'?, next?, htstep, hsstep, hnext⟩ :=
    exists_of_map_eq_map hstep
  · rw [outcome_of_error hs hsstep, outcome_of_error ht htstep]
    rfl
  · -- Both end here, or both go on from states of which one is a picture of the other.
    cases next? with
    | none =>
      cases next'? with
      | some t' => cases hnext
      | none =>
        rw [outcome_of_none hs hsstep, outcome_of_none ht htstep]
        exact congrArg (fun u : State => Except.ok (u.blocks, u.diagnostics)) h
    | some s' =>
      cases next'? with
      | none => cases hnext
      | some t' =>
        have hyields := yields_step ctx s
        rw [hsstep] at hyields
        rw [outcome_of_some hs hsstep, outcome_of_some ht htstep]
        refine ih s'.weight (hn ▸ (step_progress hs hsstep).weight_lt hs) (Option.some.inj hnext) ?_
          _ _ rfl
        exact Changes.keep (fun _ _ hs hchange => hchange.inRange hs) hyields hline

end Parse

/-! ## Documents -/

/-- What was read, with the ranks of headings mapped and without the reports on levels. -/
def Parsed.mapRanks (f : Rank → Rank) (p : Parsed) : Parsed :=
  { document := p.document.mapRanks f, diagnostics := p.diagnostics.filter Diagnostic.isUnranked }

/-- Reading under one offset gives a picture of what reading under another does, or the same error. -/
theorem Document.parse_mapRanks {f : Rank → Rank} {settings : Settings} {offset : Int}
    (hf : Rank.Carries f settings.headingLevelOffset offset) (source : Text) :
    Parsed.mapRanks id <$> Document.parse { settings with headingLevelOffset := offset } source
      = Parsed.mapRanks f <$> Document.parse settings source := by
  have hcarries : Rank.Carries f (Parse.Context.of settings source).settings.headingLevelOffset
      offset := hf
  have hstart := Parse.State.terminated_initial settings source
  have hrun := Parse.State.outcome_mapRanks hcarries (s := .initial settings source)
    (t := .initial settings source) rfl (by simp [Parse.State.initial]) hstart hstart
  rw [Document.parse_eq, Document.parse_eq]
  change Parse.mapOutcome id <$> Parse.outcomeOf { settings with headingLevelOffset := offset } source
    = Parse.mapOutcome f <$> Parse.outcomeOf settings source at hrun
  obtain ⟨failure, hmoved, hplain⟩ | ⟨r', r, hmoved, hplain, hr⟩ := exists_of_map_eq_map hrun
  · rw [hmoved, hplain]
    rfl
  · obtain ⟨hblocks, hdiagnostics⟩ := Prod.mk.inj hr
    rw [hmoved, hplain]
    refine congrArg Except.ok ?_
    simp only [Parsed.mapRanks, Document.mapRanks, List.map_reverse, List.filter_reverse, hblocks,
      hdiagnostics]

/-! ## Two offsets -/

/-- A rank moved by an offset: that of the level it has without one. -/
def Rank.shift (offset : Int) (r : Rank) : Rank := .of offset (r.level.toInt?.getD 0).toNat

/-- The rank of a level in range, moved by an offset and then into range. -/
structure Rank.IsMoved (level : Nat) (offset : Int) (r : Rank) : Prop where
  level_eq : r.level = .ofNat (max 1 (min 3 (level + offset))).toNat
  clamped_iff : r.clamped = true ↔ ¬(1 ≤ level + offset ∧ level + offset ≤ 3)

namespace Rank

theorem clampLevel_eq (level : Int) : (Parse.clampLevel level : Int) = max 1 (min 3 level) := by
  unfold Parse.clampLevel
  split
  · omega
  · split <;> omega

theorem isMoved_of (level : Nat) (offset : Int) : (of offset level).IsMoved level offset where
  level_eq := by
    rw [of, ← clampLevel_eq, Int.toNat_natCast]
  clamped_iff := by
    rw [of, decide_eq_true_iff, clampLevel_eq]
    omega

theorem shift_of_range {level : Nat} (hlevel : 1 ≤ level ∧ level ≤ 3) (offset : Int)
    (clamped : Bool) : shift offset ⟨.ofNat level, clamped⟩ = of offset level := by
  have hlt : level < 2 ^ 53 := by omega
  have hlevel? : (Number.ofNat level).toInt? = some (level : Int) :=
    Number.toInt?_ofInt (by omega) hlt
  rw [shift, hlevel?]
  rfl

theorem carries_shift (offset : Int) : Carries (shift offset) 0 offset := by
  intro level hlow hhigh
  have hlevel : Parse.clampLevel (level + 0) = level := by
    have h := clampLevel_eq (level + 0)
    omega
  rw [of, hlevel]
  exact shift_of_range ⟨hlow, hhigh⟩ offset _

end Rank

/-- The value of the offset goes into the settings, and into nothing else. -/
theorem Options.resolve_headingLevelOffset {v : Option Value} {a : Int}
    (h : read .headingLevelOffset v 0 readInt? = .ok a) (options : Options) :
    resolve { options with headingLevelOffset := v }
      = (fun settings => { settings with headingLevelOffset := a }) <$>
          resolve { options with headingLevelOffset := none } := by
  simp only [resolve, h, map_bind]
  rfl

/-- Reading under an offset gives a picture of reading under none, or the same error. -/
theorem parseDocument_mapRanks {v : Option Value} {a : Int}
    (h : Options.read .headingLevelOffset v 0 Options.readInt? = .ok a) (source : Text)
    (options : Options) :
    Parsed.mapRanks id <$> parseDocument source { options with headingLevelOffset := v }
      = Parsed.mapRanks (.shift a) <$>
          parseDocument source { options with headingLevelOffset := none } := by
  have hmapError : ∀ (f : Rank → Rank) (x : Except StructuralError Parsed),
      Parsed.mapRanks f <$> x.mapError ConversionError.structural
        = (Parsed.mapRanks f <$> x).mapError ConversionError.structural := by
    intro f x
    cases x <;> rfl
  have hnone := Options.resolve_headingLevelOffset (v := none) (a := 0) rfl options
  simp only [parseDocument, withSettings]
  rw [Options.resolve_headingLevelOffset h options]
  cases hresolve : Options.resolve { options with headingLevelOffset := none } with
  | error e => rfl
  | ok settings =>
    rw [hresolve] at hnone
    have hzero : settings.headingLevelOffset = 0 :=
      congrArg Settings.headingLevelOffset (Except.ok.inj hnone)
    have hcarries : Rank.Carries (.shift a) settings.headingLevelOffset a :=
      hzero ▸ Rank.carries_shift a
    show Parsed.mapRanks id <$> Except.mapError _ _
      = Parsed.mapRanks (.shift a) <$> Except.mapError _ _
    rw [hmapError, hmapError, Document.parse_mapRanks hcarries source]

/-- Two results that are the same failure, or both there and related. -/
inductive Matched {ε α β : Type} (r : α → β → Prop) : Except ε α → Except ε β → Prop
  | error (e : ε) : Matched r (.error e) (.error e)
  | ok {a : α} {b : β} (h : r a b) : Matched r (.ok a) (.ok b)

/-- Documents that are the same but for the levels of their headings, which come from the same levels
in range by adding `a` for the one document and `b` for the other, with the same reports on anything
but levels. -/
structure Parsed.SameButLevels (a b : Int) (p q : Parsed) : Prop where
  document : p.document.mapRanks (fun _ => ⟨.ofNat 1, false⟩)
    = q.document.mapRanks (fun _ => ⟨.ofNat 1, false⟩)
  diagnostics : p.diagnostics.filter (·.cause.code != "heading-level-clamped")
    = q.diagnostics.filter (·.cause.code != "heading-level-clamped")
  levels : List.Forall₂
    (fun r r' => ∃ level : Nat, 1 ≤ level ∧ level ≤ 3 ∧ r.IsMoved level a ∧ r'.IsMoved level b)
    p.document.ranks q.document.ranks

/-- Pictures of one document under two offsets differ in levels only. -/
theorem Parsed.sameButLevels_of_shift {a b : Int} {plain p q : Parsed}
    (hplain : plain.mapRanks id = plain.mapRanks (.shift 0))
    (hp : p.mapRanks id = plain.mapRanks (.shift a))
    (hq : q.mapRanks id = plain.mapRanks (.shift b)) : SameButLevels a b p q := by
  have hdocument : ∀ {r : Parsed} {offset : Int}, r.mapRanks id = plain.mapRanks (.shift offset) →
      r.document = plain.document.mapRanks (.shift offset) := by
    intro r offset h
    rw [← r.document.mapRanks_id]
    exact congrArg Parsed.document h
  refine ⟨?_, ?_, ?_⟩
  · -- What is moved and then erased is erased.
    rw [hdocument hp, hdocument hq, Document.mapRanks_mapRanks, Document.mapRanks_mapRanks]
    rfl
  · exact (congrArg Parsed.diagnostics hp).trans (congrArg Parsed.diagnostics hq).symm
  · -- Without an offset a rank is that of a level in range, and so are the ranks it is moved to.
    have hsame : plain.document.ranks.map id = plain.document.ranks.map (.shift 0) := by
      rw [List.map_id, ← Document.ranks_mapRanks]
      exact congrArg Document.ranks (hdocument hplain)
    rw [hdocument hp, hdocument hq, Document.ranks_mapRanks, Document.ranks_mapRanks,
      List.forall₂_map_left_iff, List.forall₂_map_right_iff, List.forall₂_same]
    intro r hr
    have hshift : r = Rank.shift 0 r := List.map_inj_left.mp hsame r hr
    obtain ⟨level, hrange, hlevel⟩ :
        ∃ level : Nat, (1 ≤ level ∧ level ≤ 3) ∧ r.level = .ofNat level := by
      have hclamp := Rank.clampLevel_eq ((r.level.toInt?.getD 0).toNat + 0)
      exact ⟨_, by omega, congrArg Rank.level hshift⟩
    have hmoved : ∀ offset, (r.shift offset).IsMoved level offset := by
      intro offset
      have hr : r.shift offset = Rank.of offset level := by
        rw [← Rank.shift_of_range hrange offset r.clamped, ← hlevel]
      exact hr ▸ Rank.isMoved_of level offset
    exact ⟨level, hrange.1, hrange.2, hmoved a, hmoved b⟩

/-- The offset of heading levels decides on the levels of headings and on nothing else. -/
theorem parseDocument_headingLevelOffset {v w : Option Value} {a b : Int}
    (ha : Options.read .headingLevelOffset v 0 Options.readInt? = .ok a)
    (hb : Options.read .headingLevelOffset w 0 Options.readInt? = .ok b)
    (source : Text) (options : Options) :
    Matched (Parsed.SameButLevels a b)
      (parseDocument source { options with headingLevelOffset := v })
      (parseDocument source { options with headingLevelOffset := w }) := by
  have hplain := parseDocument_mapRanks (v := none) (a := 0) rfl source options
  have hv := parseDocument_mapRanks ha source options
  have hw := parseDocument_mapRanks hb source options
  -- Both are compared with the reading without an offset.
  obtain ⟨e, hp, hnone⟩ | ⟨p, plain, hp, hnone, hpicture⟩ := exists_of_map_eq_map hv
  · rw [hnone] at hw
    obtain ⟨e', hq, he⟩ | ⟨q, plain, -, hok, -⟩ := exists_of_map_eq_map hw
    · cases he
      rw [hp, hq]
      exact .error e
    · cases hok
  · rw [hnone] at hplain hw
    obtain ⟨e, -, he⟩ | ⟨q, plain', hq, hok, hpicture'⟩ := exists_of_map_eq_map hw
    · cases he
    · cases hok
      rw [hp, hq]
      exact .ok (Parsed.sameButLevels_of_shift (Except.ok.inj hplain) hpicture hpicture')

/-- Headings of the first and of the third level, the second one in a quote. -/
def twoHeadings : Text :=
  "\\section\x7bA\x7d\n\\begin\x7bquote\x7d\\subsubsection\x7bB\x7d\\end\x7bquote\x7d"

/-- One level down moves one of them out of range, five levels up both. -/
theorem parseDocument_headingLevelOffset_sample :
    ∃ p q, parseDocument twoHeadings { headingLevelOffset := some (.number 1) } = .ok p ∧
      parseDocument twoHeadings { headingLevelOffset := some (.number (.ofInt (-5))) } = .ok q ∧
      p.document.ranks = [⟨.ofNat 2, false⟩, ⟨.ofNat 3, true⟩] ∧
      q.document.ranks = [⟨.ofNat 1, true⟩, ⟨.ofNat 1, true⟩] ∧ p.SameButLevels 1 (-5) q := by
  have hdown : Options.read .headingLevelOffset (some (.number 1)) 0 Options.readInt? = .ok 1 := rfl
  have hup : Options.read .headingLevelOffset (some (.number (.ofInt (-5)))) 0 Options.readInt?
      = .ok (-5) := rfl
  have hresolveDown : ({ headingLevelOffset := some (.number 1) } : Options).resolve
      = .ok { headingLevelOffset := 1 } := rfl
  have hresolveUp : ({ headingLevelOffset := some (.number (.ofInt (-5))) } : Options).resolve
      = .ok { headingLevelOffset := -5 } := rfl
  have hreadDown : (Document.parse { headingLevelOffset := 1 } twoHeadings).map (·.document.ranks)
      = .ok [⟨.ofNat 2, false⟩, ⟨.ofNat 3, true⟩] := by
    decide +kernel
  have hreadUp : (Document.parse { headingLevelOffset := -5 } twoHeadings).map (·.document.ranks)
      = .ok [⟨.ofNat 1, true⟩, ⟨.ofNat 1, true⟩] := by
    decide +kernel
  obtain ⟨p, hp, hranksDown⟩ := exists_of_parse_map hresolveDown hreadDown
  obtain ⟨q, hq, hranksUp⟩ := exists_of_parse_map hresolveUp hreadUp
  have hmatched := parseDocument_headingLevelOffset hdown hup twoHeadings {}
  rw [hp, hq] at hmatched
  cases hmatched with
  | ok h => exact ⟨p, q, hp, hq, hranksDown, hranksUp, h⟩

end LatexMarkdown
