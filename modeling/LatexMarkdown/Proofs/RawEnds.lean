import LatexMarkdown.Proofs.Blame
import LatexMarkdown.Proofs.Captions
import LatexMarkdown.Proofs.EndMarkers
/-!
  Reading a raw environment to its end.

  Behind the begin marker of a raw environment stand the tokens of its body (`Text.Delimits`), so
  the reader, which does not look for the end marker itself, passes it or meets the end of the
  text (`Parse.State.readsRaw`).  No raw environment is open from one step to the next
  (`Parse.State.NoneRaw`), so none is blamed for an end marker that is not its own.

  Main statement: `rawEnvironments_end`.
-/
namespace LatexMarkdown

namespace Parse

variable {ctx : Context} {s t : State} {n : Nat} {m : Marker}

/-! ## Environments that are open -/

namespace State

/-- No environment that is read raw is open, and no table is one. -/
structure NoneRaw (s : State) : Prop where
  environments : ∀ m ∈ s.environments.map (·.marker), m.text ∉ rawEnvironments
  table : ∀ i ∈ s.inline?, ∀ table, i.line = .cell table → table.marker.text ∉ rawEnvironments

namespace NoneRaw

theorem initial (settings : Settings) (source : Text) : NoneRaw (.initial settings source) :=
  ⟨by simp [State.initial], by simp [State.initial]⟩

theorem of_hasOpen (h : s.NoneRaw) (ho : s.HasOpen m) : m.text ∉ rawEnvironments := by
  obtain he | ⟨i, hi, table, hl, rfl⟩ := ho
  · exact h.environments m he
  · exact h.table i hi table hl

/-- The same environments are open, and no inline content. -/
theorem next_none (h : s.NoneRaw)
    (he : t.environments.map (·.marker) = s.environments.map (·.marker)) (hi : t.inline? = none) :
    t.NoneRaw :=
  ⟨he ▸ h.environments, by simp [hi]⟩

/-- The same environments are open, and inline content in no other table. -/
theorem next_inline {i : OpenInline} {c : Cursor} (h : s.NoneRaw)
    (hi : ∀ table, i.line = .cell table → table.marker.text ∉ rawEnvironments) :
    NoneRaw { s with cursor := c, inline? := some i } :=
  ⟨h.environments, fun _ hj => Option.some.inj hj ▸ hi⟩

/-- Every change keeps this: what is opened is not read raw. -/
theorem change (h : s.NoneRaw) (hchange : Change ctx s t) : t.NoneRaw := by
  -- Inline content of the line that is open, which may be a cell.
  have hline : ∀ {i : OpenInline} {table : OpenTable}, s.inline? = some i → i.line = .cell table →
      table.marker.text ∉ rawEnvironments := fun hi hl => h.table _ hi _ hl
  cases hchange with
  | skip | warn => exact ⟨h.environments, h.table⟩
  | addLeaf hi => exact h.next_none (Nesting.markers_addBlocks _ _) (by simp [hi])
  | beginEnvironment hi hk hc hr hd hraw =>
    exact ⟨List.forall_mem_cons.mpr ⟨hraw, h.environments⟩, by simp [pushEnvironment, hi]⟩
  | closeEnvironment hi hk he =>
    refine ⟨?_, by simp [hi]⟩
    rw [Nesting.markers_closeEnvironment]
    exact fun m hm => h.environments m (by rw [he]; exact List.mem_cons_of_mem _ hm)
  | beginItem hi hk he => exact h.next_none (by rw [he]; rfl) (by simp [hi])
  | beginLabel | beginHeading => exact h.next_inline (by simp)
  | beginParagraph hi => exact ⟨h.environments, by simp⟩
  | beginTable hi hk hc hd hraw =>
    refine h.next_inline fun table hl => ?_
    cases hl
    exact hraw
  | gather hi => exact h.next_inline fun _ hl => hline hi hl
  | openBrace kept hi => exact h.next_inline fun _ hl => hline hi hl
  | closeBrace hi => exact h.next_inline fun _ hl => hline hi hl
  | openArgument hi hk hl =>
    refine h.next_inline fun table hl' => ?_
    -- A spanning cell stays in the table that was opened.
    rcases hl with rfl | ⟨table', span, hl, rfl⟩
    · exact hline hi hl'
    · cases hl'
      have hraw := hline hi hl
      exact hraw
  | closeArgument hi => exact h.next_inline fun _ hl => hline hi hl
  | closeParagraph =>
    exact h.next_none (Nesting.markers_closeParagraph _ _ _) (inline?_closeParagraph _ _ _)
  | closeHeading =>
    refine h.next_none (markers_closeHeading _ _ _ _ _) ?_
    simp only [closeHeading]
    split <;> simp [warnAt, warn]
  | closeLabel =>
    refine h.next_none (markers_closeLabel _ _) ?_
    simp only [closeLabel]
    split <;> rfl
  | @nextCell i table hi hk ha hl =>
    refine h.next_inline fun table' hl' => ?_
    cases hl'
    have hraw := hline hi hl
    exact hraw
  | @nextRow i table c hi hk ha hl =>
    refine h.next_inline fun table' hl' => ?_
    cases hl'
    show (s.finishRow _).marker.text ∉ rawEnvironments
    rw [marker_finishRow]
    have hraw := hline hi hl
    exact hraw
  | closeTable =>
    refine h.next_none ?_ (by simp)
    obtain ⟨ds, heq, -⟩ := s.exists_warnRagged_eq _ (TableRow.columnCount _) _
    rw [Nesting.markers_addBlocks, heq]

end NoneRaw

/-! ## One step -/

/-- What every change keeps, every run keeps. -/
theorem Runs.keep {holds : State → Prop} (hkeep : ∀ s t, holds s → Change ctx s t → holds t)
    (h : Runs ctx n s t) (hs : holds s) : holds t := by
  induction h with
  | refl => exact hs
  | @step n s t u hstep _ ih =>
    have hyields := yields_step ctx s
    rw [hstep] at hyields
    exact ih (Changes.keep hkeep hyields hs)

/-- The token behind a raw body: the end marker, or the end of the text. -/
theorem current_pastBody {source name : Text} {start : Nat} {c : Cursor} (hc : c.Terminated)
    (h : source.Delimits name start c.remaining) :
    (∀ place, source.EndsAt name start place → (pastBody c).current.kind = .envEnd ∧
      (pastBody c).current.text = name ∧ (pastBody c).current.start = place) ∧
    (source.NeverEnds name start → (pastBody c).current.kind = .endOfFile) := by
  have hfirst : ∀ (d : Cursor) place, Text.EndsWith name place d.remaining →
      d.current.kind = .envEnd ∧ d.current.text = name ∧ d.current.start = place := by
    rintro d place ⟨t, ht, hends⟩
    obtain ⟨rest, hrest⟩ := List.head?_eq_some_iff.mp ht
    rwa [Cursor.current_of_remaining hrest]
  have hbody : ∀ (body : Token) rest, c.remaining = body :: rest → body.kind = .rawText →
      pastBody c = c.advance ∧ c.advance.remaining = rest := by
    intro body rest hr hk
    have hcurrent : c.current = body := Cursor.current_of_remaining hr
    have hkind : c.current.kind = .rawText := hcurrent ▸ hk
    refine ⟨if_pos hkind, ?_⟩
    rw [Cursor.remaining_eq_cons hc (by simp [hkind])] at hr
    exact (List.cons.inj hr).2
  constructor
  · intro place hends
    -- The body is one raw text in front of the marker, or it is empty.
    rcases Nat.lt_or_eq_of_le hends.le with hlt | rfl
    · obtain ⟨body, rest, hr, hk, -, -, hrest⟩ := h.closed place hends hlt
      obtain ⟨hpast, hremaining⟩ := hbody body rest hr hk
      rw [hpast]
      exact hfirst _ place (hremaining ▸ hrest)
    · have hcurrent := hfirst c start (h.empty hends)
      rwa [pastBody, if_neg (by simp [hcurrent.1])]
  · intro hnever
    by_cases hlt : start < source.length
    · obtain ⟨body, last, hr, hk, -, -, hlast⟩ := h.unclosed hnever hlt
      obtain ⟨hpast, hremaining⟩ := hbody body [last] hr hk
      rw [hpast, Cursor.current_of_remaining hremaining]
      exact hlast
    · obtain ⟨last, hr, hlast⟩ := h.atEnd hnever (by omega)
      have hcurrent : c.current = last := Cursor.current_of_remaining hr
      rwa [pastBody, if_neg (by simp [hcurrent, hlast]), hcurrent]

theorem takeCode_eq (s : State) (c : Cursor) (begun : Marker) :
    s.takeCode c begun = (fun after => ({ s with cursor := after } : State).addBlocks
      [.code (.span begun.token.start after.lastStop)
        (CodeBody.ofBody begun.text (rawBody c)).text
        (CodeBody.ofBody begun.text (rawBody c)).language]) <$>
      expectEnd (pastBody c) begun := by
  show (expectEnd (pastBody c) begun >>= fun after => pure _) = _
  cases expectEnd (pastBody c) begun <;> rfl

theorem skipComment_eq (s : State) (c : Cursor) (begun : Marker) :
    s.skipComment c begun
      = (fun after => ({ s with cursor := after } : State)) <$> expectEnd (pastBody c) begun := by
  show (expectEnd (pastBody c) begun >>= fun after => pure _) = _
  cases expectEnd (pastBody c) begun <;> rfl

/-- The token that comes next, between blocks, begins a code or a comment environment. -/
def AtRaw (s : State) : Prop :=
  s.inline? = none ∧ s.facing.current.kind = .envBegin ∧
    (EnvironmentKind.ofName? s.facing.current.text = some .codeBlock ∨
      EnvironmentKind.ofName? s.facing.current.text = some .comment)

/-- Both kinds of environment go on behind the body with the end marker. -/
theorem exists_beginEnvironment_eq (ctx : Context)
    (hname : EnvironmentKind.ofName? s.cursor.marker.text = some .codeBlock ∨
      EnvironmentKind.ofName? s.cursor.marker.text = some .comment)
    (hdepth : s.depth + 1 ≤ nestingLimit) :
    ∃ add : Cursor → State, (∀ c, (add c).cursor = c) ∧
      s.beginEnvironment ctx = add <$> expectEnd (pastBody s.cursor.advance) s.cursor.marker := by
  have hcheck : checkDepth s.depth s.cursor.marker = .ok () := checkDepth_of_le hdepth _
  rcases hname with hname | hname
  · refine ⟨fun after => ({ s with cursor := after } : State).addBlocks
      [.code (.span s.cursor.current.start after.lastStop)
        (CodeBody.ofBody s.cursor.marker.text (rawBody s.cursor.advance)).text
        (CodeBody.ofBody s.cursor.marker.text (rawBody s.cursor.advance)).language],
      fun c => by simp, ?_⟩
    simp only [beginEnvironment, hcheck, hname]
    exact takeCode_eq _ _ _
  · refine ⟨fun after => { s with cursor := after }, fun _ => rfl, ?_⟩
    simp only [beginEnvironment, hcheck, hname]
    exact skipComment_eq _ _ _

theorem step_of_atRaw (ctx : Context) (h : s.AtRaw) :
    s.step ctx = some <$> ({ s with cursor := s.facing } : State).beginEnvironment ctx := by
  obtain ⟨hi, hk, -⟩ := h
  have hfacing : s.facing = s.cursor.skipSpacing := by rw [facing, hi]; rfl
  simp only [step, hi, takeBlock, ← hfacing, hk, beginBlock]

/-- Where it is not too deep, the step goes on behind the end marker that follows the body. -/
theorem exists_step_eq (ctx : Context) (h : s.AtRaw) (hdepth : s.depth + 1 ≤ nestingLimit) :
    ∃ add : Cursor → State, (∀ c, (add c).cursor = c) ∧
      s.step ctx
        = (fun c => some (add c)) <$> expectEnd (pastBody s.facing.advance) s.facing.marker := by
  obtain ⟨add, hcursor, hbegin⟩ :=
    exists_beginEnvironment_eq (s := { s with cursor := s.facing }) ctx h.2.2 hdepth
  exact ⟨add, hcursor, by rw [step_of_atRaw ctx h, hbegin, Functor.map_map]⟩

/-- What becomes of the raw environment that begins next: it is read to its first end marker, and
without one it is unclosed. -/
structure ReadsRaw (ctx : Context) (source : Text) (s : State) : Prop where
  tooDeep : nestingLimit < s.depth + 1 →
    s.step ctx = .error ⟨.nestingTooDeep nestingLimit, s.facing.marker⟩
  /-- The token passed last is the first end marker. -/
  ended : s.depth + 1 ≤ nestingLimit →
    ∀ place, source.EndsAt s.facing.current.text s.facing.current.stop place →
      ∃ next ended, s.step ctx = .ok (some next) ∧ next.cursor.passed.head? = some ended ∧
        ended.kind = .envEnd ∧ ended.text = s.facing.current.text ∧ ended.start = place
  unclosed : s.depth + 1 ≤ nestingLimit →
    source.NeverEnds s.facing.current.text s.facing.current.stop →
      s.step ctx = .error ⟨.unclosedEnvironment s.facing.current.text, s.facing.marker⟩
  /-- Nothing else can fail about it. -/
  failure : s.depth + 1 ≤ nestingLimit → ∀ f, s.step ctx = .error f →
    f = ⟨.unclosedEnvironment s.facing.current.text, s.facing.marker⟩

section Body

variable {source : Text} (h : s.AtRaw) (hc : s.facing.advance.Terminated)
  (hbody : source.Delimits s.facing.current.text s.facing.current.stop s.facing.advance.remaining)

include h hc hbody

theorem exists_step_of_endsAt (ctx : Context) (hdepth : s.depth + 1 ≤ nestingLimit) {place : Nat}
    (hplace : source.EndsAt s.facing.current.text s.facing.current.stop place) :
    ∃ next ended, s.step ctx = .ok (some next) ∧ next.cursor.passed.head? = some ended ∧
      ended.kind = .envEnd ∧ ended.text = s.facing.current.text ∧ ended.start = place := by
  obtain ⟨add, hcursor, hstep⟩ := exists_step_eq ctx h hdepth
  obtain ⟨hkind, htext, hstart⟩ := (current_pastBody hc hbody).1 place hplace
  have hend : expectEnd (pastBody s.facing.advance) s.facing.marker
      = .ok (pastBody s.facing.advance).advance := by
    simp [expectEnd, hkind, htext, Marker.text, Cursor.marker]
  refine ⟨add (pastBody s.facing.advance).advance, (pastBody s.facing.advance).current,
    by rw [hstep, hend]; rfl, ?_, hkind, htext, hstart⟩
  rw [hcursor, Cursor.advance, if_neg (by simp [hkind])]
  rfl

theorem step_of_neverEnds (ctx : Context) (hdepth : s.depth + 1 ≤ nestingLimit)
    (hnever : source.NeverEnds s.facing.current.text s.facing.current.stop) :
    s.step ctx = .error ⟨.unclosedEnvironment s.facing.current.text, s.facing.marker⟩ := by
  obtain ⟨add, -, hstep⟩ := exists_step_eq ctx h hdepth
  have hend : expectEnd (pastBody s.facing.advance) s.facing.marker
      = .error ⟨.unclosedEnvironment s.facing.current.text, s.facing.marker⟩ := by
    simp [expectEnd, (current_pastBody hc hbody).2 hnever, Marker.text, Cursor.marker]
  rw [hstep, hend]
  rfl

/-- All hangs on the token behind the body, which the tokens of the body determine. -/
theorem readsRaw (ctx : Context) : s.ReadsRaw ctx source where
  tooDeep hdepth := by
    have hcheck : checkDepth s.depth s.facing.marker
        = .error ⟨.nestingTooDeep nestingLimit, s.facing.marker⟩ := checkDepth_of_lt hdepth _
    rw [step_of_atRaw ctx h]
    show some <$> (checkDepth s.depth s.facing.marker >>= _) = _
    rw [hcheck]
    rfl
  ended hdepth _ hplace := exists_step_of_endsAt h hc hbody ctx hdepth hplace
  unclosed hdepth hnever := step_of_neverEnds h hc hbody ctx hdepth hnever
  failure hdepth f hf := by
    -- There is a first end marker or there is none.
    rcases Text.exists_endsAt_or_neverEnds source s.facing.current.text s.facing.current.stop with
      ⟨place, hplace⟩ | hnever
    · obtain ⟨next, -, hnext, -⟩ := exists_step_of_endsAt h hc hbody ctx hdepth hplace
      rw [hnext] at hf
      cases hf
    · have hunclosed := step_of_neverEnds h hc hbody ctx hdepth hnever
      exact (Except.error.inj (hunclosed.symm.trans hf)).symm

end Body

end State

/-- Behind the begin marker that a state of a reading faces stand the tokens of the body. -/
theorem Marked.delimits {source : Text} {keep : Bool} {c : Cursor}
    (h : Marked (source.tokens keep) s) (hc : s.cursor.Reaches c) (hk : c.current.kind = .envBegin)
    (hraw : c.current.text ∈ rawEnvironments) :
    source.Delimits c.current.text c.current.stop c.advance.remaining := by
  have hplaced := h.placed.reaches h.terminated hc
  have hremaining := Cursor.remaining_eq_cons (hc.terminated h.terminated) (by simp [hk])
  exact Text.delimits_of_tokens (hplaced.tokens_eq.symm.trans (by rw [hremaining])) hk hraw

/-- An end marker that is not the one of what is open is never blamed on a raw environment. -/
theorem not_mem_of_fails {source : Text} {keep : Bool} {f : Failure} {found opened : Text}
    (h : Fails s f) (hm : Marked (source.tokens keep) s) (hn : s.NoneRaw)
    (hf : f.flaw = .mismatchedEnvironment found opened) : opened ∉ rawEnvironments := by
  cases h with
  | mismatched hc hk ho =>
    simp only [Flaw.mismatchedEnvironment.injEq] at hf
    exact hf.2 ▸ hn.of_hasOpen ho
  | environment | table | group => cases hf
  | fault h =>
    obtain ⟨d, hd, hfault⟩ := h
    cases hfault with
    | mismatchedBody hk hraw hend hne =>
      -- Behind the body stands the end marker, or nothing does.
      have hends := ends_pastBody (hm.placed.reaches hm.terminated hd) (hd.terminated hm.terminated)
        (source.framed_tokens keep) hk hraw
      exact absurd hends (by simp [hend, hne])
    | missingArgument h =>
      unfold Parse.missingArgument at hf
      split at hf <;> cases hf
    | _ => cases hf

end Parse

/-! ## Documents -/

open Parse

/-- A raw environment ends at its first own end marker.  The tokens behind its begin marker are
those of its body; the reader goes on behind the marker, or the environment is unclosed; and no raw
environment is ever blamed for an end marker that is not its own. -/
theorem rawEnvironments_end (source : Text) :
    (∀ (keep : Bool) (before after : List Token) (begun : Token),
      source.tokens keep = before ++ begun :: after → begun.kind = .envBegin →
      begun.text ∈ rawEnvironments → source.Delimits begun.text begun.stop after) ∧
    (∀ (settings : Settings) (n : Nat) (s : State),
      State.Runs (.of settings source) n (.initial settings source) s → s.AtRaw →
      s.ReadsRaw (.of settings source) source) ∧
    (∀ (options : Options) (e : StructuralError) (found opened : Text),
      parseDocument source options = .error (.structural e) →
      e.flaw = .mismatchedEnvironment found opened → opened ∉ rawEnvironments) := by
  refine ⟨fun keep before after begun => Text.delimits_of_tokens, ?_, ?_⟩
  · intro settings n s hruns hat
    have hmarked : Marked (source.tokens settings.keepComments) s :=
      hruns.keep (fun _ _ => Marked.change) (Marked.initial settings source)
    have hraw : s.facing.current.text ∈ rawEnvironments := by
      rcases hat.2.2 with hname | hname
      · exact State.mem_rawEnvironments_of_ofName? hname (.inl rfl)
      · exact State.mem_rawEnvironments_of_ofName? hname (.inr rfl)
    -- The token that the state faces splits the list of tokens where the environment begins.
    have hreaches : s.cursor.Reaches s.facing := by
      have hfacing : s.facing = s.cursor.skipSpacing := by rw [State.facing, hat.1]; rfl
      rw [hfacing]
      exact Cursor.reaches_skipSpacing _
    exact State.readsRaw hat (hreaches.terminated hmarked.terminated).advance
      (hmarked.delimits hreaches hat.2.1 hraw) _
  · intro options e found opened h hflaw
    obtain ⟨settings, f, -, houtcome, rfl⟩ := exists_of_parseDocument_structural h
    -- What fails is a state that a run comes to, where no raw environment is open.
    have hkeep : ∀ s t : State, Marked (source.tokens settings.keepComments) s ∧ s.NoneRaw →
        Change (.of settings source) s t →
        Marked (source.tokens settings.keepComments) t ∧ t.NoneRaw :=
      fun _ _ hs hchange => ⟨hs.1.change hchange, hs.2.change hchange⟩
    have hyields := yields_outcomeOf hkeep
      ⟨Marked.initial settings source, .initial settings source⟩
    rw [houtcome] at hyields
    obtain ⟨s, ⟨hmarked, hnone⟩, hfails⟩ := hyields
    exact not_mem_of_fails hfails hmarked hnone hflaw

/-- The body has the marker of another environment, and a backslash right before its own. -/
def nearEnds : Text := "\\begin\x7bverbatim\x7d\\end\x7bverbatim*\x7d\\\\end \x7bverbatim\x7d"

/-- An environment with the end marker of another. -/
def crossedEnds : Text := "\\begin\x7bcenter\x7d\\end\x7bquote\x7d"

/-- That end marker is the one at fault. -/
def crossedError : StructuralError := ⟨.mismatchedEnvironment "quote" "center", 14, 1, ⟨1, 15⟩⟩

/-- The body ends at the first own end marker, and another environment is blamed for one that is not
its own. -/
theorem rawEnvironments_end_sample :
    (∃ begun after, nearEnds.tokens false = [] ++ begun :: after ∧
      nearEnds.EndsAt begun.text begun.stop 32 ∧ nearEnds.Delimits begun.text begun.stop after) ∧
    (∃ next ended, (State.initial {} nearEnds).step (.of {} nearEnds) = .ok (some next) ∧
      next.cursor.passed.head? = some ended ∧ ended.start = 32) ∧
    parseDocument crossedEnds {} = .error (.structural crossedError) ∧
      Text.ofString "center" ∉ rawEnvironments := by
  have hends : nearEnds.EndsAt "verbatim" 16 32 :=
    .of_offset (n := 16) rfl (by decide)
  refine ⟨?_, ?_, ?_⟩
  · have hfirst : (nearEnds.tokens false).head?.map (fun t => (t.kind, t.text, t.stop))
        = some (.envBegin, Text.ofString "verbatim", 16) := by decide +kernel
    obtain ⟨begun, hhead, heq⟩ := Option.map_eq_some_iff.mp hfirst
    obtain ⟨after, htokens⟩ := List.head?_eq_some_iff.mp hhead
    simp only [Prod.mk.injEq] at heq
    obtain ⟨hk, htext, hstop⟩ := heq
    refine ⟨begun, after, htokens, by rw [htext, hstop]; exact hends, ?_⟩
    exact (rawEnvironments_end nearEnds).1 false [] after begun htokens hk (by rw [htext]; decide)
  · have hat : (State.initial {} nearEnds).AtRaw :=
      ⟨rfl, by decide +kernel, .inl (by decide +kernel)⟩
    have htext : (State.initial {} nearEnds).facing.current.text = "verbatim" := by decide +kernel
    have hstop : (State.initial {} nearEnds).facing.current.stop = 16 := by decide +kernel
    have hreads := (rawEnvironments_end nearEnds).2.1 {} 0 _ (.refl _) hat
    obtain ⟨next, ended, hstep, hpassed, -, -, hstart⟩ :=
      hreads.ended (by decide +kernel) 32 (by rw [htext, hstop]; exact hends)
    exact ⟨next, ended, hstep, hpassed, hstart⟩
  · have hfails : (Document.parse {} crossedEnds).map (fun _ => ()) = .error crossedError := by
      decide +kernel
    have h : parseDocument crossedEnds {} = .error (.structural crossedError) := by
      cases hparse : Document.parse {} crossedEnds with
      | ok parsed => rw [hparse] at hfails; cases hfails
      | error e =>
        rw [hparse] at hfails
        cases hfails
        exact congrArg (Except.mapError ConversionError.structural) hparse
    exact ⟨h, (rawEnvironments_end crossedEnds).2.2 {} _ _ _ h rfl⟩

end LatexMarkdown
