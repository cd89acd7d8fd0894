import LatexMarkdown.Proofs.Steps
import LatexMarkdown.Proofs.Termination.Loops
/-!
  Reading terminates on every input.

  `State.Runs` counts steps.  Along a run the cursor index grows, except over the one step that closes
  a paragraph (`Runs.index_lt`): the loops over blocks and items come round between blocks, those over
  rows, cells, inline content and the braces behind an unknown command inside inline content, and
  neither can come round with that step alone.  With the loops of the readers of whole arguments and
  of mathematics, `reading_terminates` says of every loop that it gets on, and of every source how
  soon reading it is over.
-/
namespace LatexMarkdown

open Parse Parse.State

/-! ## Runs -/

namespace Parse.State

variable {ctx : Context} {s t u : State} {n : Nat}

/-- So many steps, one after the other, lead from one state to the other. -/
inductive Runs (ctx : Context) : Nat → State → State → Prop
  | refl (s : State) : Runs ctx 0 s s
  | step {n : Nat} {s t u : State} (h : s.step ctx = .ok (some t)) (rest : Runs ctx n t u) :
      Runs ctx (n + 1) s u

/-- A step passes tokens unless it goes from inside inline content to between blocks. -/
theorem index_lt_of_step (hs : s.cursor.Terminated) (h : s.step ctx = .ok (some t))
    (hloop : s.inline? = none ∨ t.inline?.isSome = true) : s.cursor.index < t.cursor.index := by
  rcases step_progress hs h with ⟨c, hc, hp⟩ | ⟨_, hs, ht⟩
  · exact Nat.lt_of_le_of_lt hc.index_le hp.index_lt
  · rcases hloop with hnone | hsome
    · simp [hnone] at hs
    · simp [ht] at hsome

theorem Runs.index_le (hs : s.cursor.Terminated) (h : Runs ctx n s t) :
    s.cursor.index ≤ t.cursor.index := by
  induction h with
  | refl => exact Nat.le_refl _
  | step h _ ih =>
    have hp := step_progress hs h
    exact Nat.le_trans hp.reaches.index_le (ih (hp.terminated hs))

/-- So does a run of any number of steps. -/
theorem Runs.index_lt (hs : s.cursor.Terminated) (h : Runs ctx (n + 1) s t)
    (hloop : s.inline? = none ∨ t.inline?.isSome = true) : s.cursor.index < t.cursor.index := by
  induction n generalizing s with
  | zero =>
    cases h with
    | step h rest =>
      cases rest with
      | refl => exact index_lt_of_step hs h hloop
  | succ n ih =>
    cases h with
    | @step _ _ u _ h rest =>
      have hu := (step_progress hs h).terminated hs
      rcases step_progress hs h with ⟨c, hc, hp⟩ | ⟨hcursor, _, hnone⟩
      · have hlt := Nat.lt_of_le_of_lt hc.index_le hp.index_lt
        exact Nat.lt_of_lt_of_le hlt (rest.index_le hu)
      -- Once a paragraph is closed, the run goes on from between blocks.
      · exact hcursor ▸ ih hu rest (.inl hnone)

/-- From every state so many steps are left as its weight tells, and then the document is read or
reading it fails. -/
theorem exists_runs (ctx : Context) (s : State) (h : s.cursor.Terminated) :
    ∃ n t, n ≤ s.weight ∧ Runs ctx n s t ∧
      (t.step ctx = .ok none ∧ s.outcome ctx h = .ok (t.blocks, t.diagnostics) ∨
        ∃ f, t.step ctx = .error f ∧ s.outcome ctx h = .error f) := by
  induction hn : s.weight using Nat.strongRecOn generalizing s with
  | ind weight ih =>
  cases hs : s.step ctx with
  | error f => exact ⟨0, s, Nat.zero_le _, .refl s, .inr ⟨f, hs, outcome_of_error h hs⟩⟩
  | ok next? =>
    cases next? with
    | none => exact ⟨0, s, Nat.zero_le _, .refl s, .inl ⟨hs, outcome_of_none h hs⟩⟩
    | some next =>
      have hlt : next.weight < weight := hn ▸ (step_progress h hs).weight_lt h
      obtain ⟨n, t, hle, hruns, hend⟩ :=
        ih next.weight hlt next ((step_progress h hs).terminated h) rfl
      rw [outcome_of_some h hs]
      exact ⟨n + 1, t, by omega, .step hs hruns, hend⟩

/-- At the start twice the tokens weigh. -/
theorem weight_initial_le (settings : Settings) (source : Text) :
    (State.initial settings source).weight ≤ 2 * (source.tokens settings.keepComments).length := by
  have hahead : (State.initial settings source).cursor.ahead =
      (source.tokens settings.keepComments).dropLast := rfl
  rw [weight, hahead, List.length_dropLast]
  simp only [State.initial, Option.isSome_none, Bool.toNat_false]
  omega

end Parse.State

/-! ## Loops -/

/-- A loop comes to a result, and each round that goes on moves the cursor index up. -/
structure Loop.Advances {σ ρ : Type} (cursor : σ → Cursor) (round : σ → Round σ ρ → Prop) (x : σ)
    (r : ρ) : Prop where
  ends : Loop round x r
  advances : ∀ y z, round y (.again z) → (cursor y).index < (cursor z).index

namespace Parse

variable {c : Cursor}

theorem advances_skip {p : Token → Bool} (hp : ∀ t, p t = true → t.kind ≠ .endOfFile)
    (hc : c.EndsOnce) :
    Loop.Advances id (skipRound p · = ·) c (c.advanceBy (c.countWhile p)) where
  ends := loop_skip hp hc.1
  advances _ _ h := (passes_of_skipRound hp h).index_lt

theorem kind_ne_of_isCellSpacing {t : Token} (h : isCellSpacing t = true) :
    t.kind ≠ .endOfFile := by
  rw [isCellSpacing, Bool.or_eq_true, beq_iff_eq] at h
  rcases h with h | h
  · simp [h]
  · exact Token.kind_ne_endOfFile_of_isSpacing h

end Parse

/-! ## Every loop -/

/-- Reading terminates on every input because every loop gets on.  A round between blocks that began a
paragraph at a token that ends it would come round to the same token. -/
theorem reading_terminates :
    -- The loops over blocks, items, rows, cells, inline content and braces behind a command: whatever
    -- the steps of a round are, it begins between blocks or ends inside inline content.
    (∀ (ctx : Context) (n : Nat) (s t : State), s.cursor.Terminated → Runs ctx (n + 1) s t →
      s.inline? = none ∨ t.inline?.isSome = true → s.cursor.index < t.cursor.index) ∧
    (∀ c : Cursor, c.EndsOnce →
      -- Spacing between blocks and before a cell.
      Loop.Advances id (skipRound Token.isSpacing · = ·) c c.skipSpacing ∧
      Loop.Advances id (skipRound isCellSpacing · = ·) c
        (c.advanceBy (c.countWhile isCellSpacing)) ∧
      -- The lookahead for an argument and for the end of an optional one.
      (∃ n, Loop (startRound c · = ·) 0 n ∧
        (∀ m, Loop.Visits (startRound c · = ·) 0 m → m ≤ c.ahead.length) ∧
        (∀ kind, startArgument? kind c =
          if (c.lookahead n).kind = kind then some (c.advanceBy n) else none) ∧
        ((c.lookahead n).kind ≠ .bracketOpen → skipOptionalArgument c = c) ∧
        ((c.lookahead n).kind = .bracketOpen →
          (∃ r, Loop (optionalRound c · = ·) (n + 1, 0) r ∧
            skipOptionalArgument c = r.elim c fun m => c.advanceBy (m + 1)) ∧
          ∀ m, Loop.Visits (optionalRound c · = ·) (n + 1, 0) m → m.1 ≤ c.ahead.length)) ∧
      -- Arguments as they are spelled.
      (∀ source owner flaw, readGroup source owner flaw c = .error ⟨flaw, owner⟩ ∨
        ∃ opened, startArgument? .groupOpen c = some opened ∧
          Loop.Advances (·.1) (groupRound source opened.marker · = ·) (opened.advance, 0, [])
            (readGroup source owner flaw c)) ∧
      -- Mathematics in an environment, between delimiters, and in dollars.
      (∀ (ctx : Context) (s : State) begun aligned, ∃ r,
        Loop.Advances (·.1) (environmentRound ctx.source begun · = ·) (c, []) r ∧
        s.takeMathEnvironment ctx c begun aligned = r.map fun found =>
          (({ s with cursor := found.2.advance } : State).addBlocks
            [.math (.span begun.token.start found.2.advance.lastStop) found.1.trim
              (if aligned then some begun.text else none)])) ∧
      (c.current.kind ≠ .endOfFile → ∀ source,
        (mathCloser c.current.text ≠ "$" → ∃ r,
          Loop.Advances (·.1)
            (collectRound source c.marker c.current.kind (mathCloser c.current.text) · = ·)
            (c.advance, []) r ∧
          readMath source c = r.map (fun m => (m.text, m.cursor))) ∧
        Loop.Advances (·.1) (SpanRound source (closerKind c.current) (mathCloser c.current.text))
          (c.advance, c.marker, []) (readInlineMath source c) ∧
        ∀ opener x y,
          collectRound source opener (closerKind c.current) (mathCloser c.current.text) x = .again y →
          x.1.index < y.1.index)) ∧
    -- Documents: at most two steps for each token, and then there is a document or an error.
    (∀ (source : Text) (options : Options) (settings : Settings), options.resolve = .ok settings →
      ∃ n t, n ≤ 2 * (source.tokens settings.keepComments).length ∧
        Runs (.of settings source) n (.initial settings source) t ∧
        (t.step (.of settings source) = .ok none ∧
          parseDocument source options = .ok {
            document :=
              { info := .span 0 source.length
                children := t.blocks.reverse
                lineStarts := (LineTable.ofText source).toList }
            diagnostics := t.diagnostics.reverse } ∨
        ∃ f, t.step (.of settings source) = .error f ∧
          parseDocument source options =
            .error (.structural (f.located (LineTable.ofText source))))) := by
  refine ⟨fun ctx n s t hs => Runs.index_lt hs, fun c hc => ⟨?_, ?_, ?_, ?_, ?_, ?_⟩, ?_⟩
  · exact advances_skip (fun _ => Token.kind_ne_endOfFile_of_isSpacing) hc
  · exact advances_skip (fun _ => kind_ne_of_isCellSpacing) hc
  · refine ⟨_, loop_startArgument hc.1, fun m => le_length_of_startRound hc.1, fun kind => rfl, ?_, ?_⟩
    · intro hk
      have hnone : startArgument? .bracketOpen c = none := if_neg hk
      rw [skipOptionalArgument, hnone]
    · intro hk
      refine ⟨loop_skipOptionalArgument hc hk, fun m => le_length_of_optionalRound hc.1 ?_⟩
      exact Cursor.lt_length_of_lookahead hc.1 (by rw [hk]; simp)
  · intro source owner flaw
    refine (loop_readGroup source hc owner flaw).imp_right ?_
    rintro ⟨opened, hopened, hloop⟩
    exact ⟨opened, hopened, hloop, fun _ _ h => (passes_of_groupRound h).index_lt⟩
  · intro ctx s begun aligned
    obtain ⟨r, hloop, hr⟩ := loop_takeMathEnvironment ctx s hc begun aligned
    exact ⟨r, ⟨hloop, fun _ _ h => (passes_of_environmentRound h).index_lt⟩, hr⟩
  · intro hk source
    refine ⟨fun hcloser => ?_, ?_, fun _ _ _ h => (passes_of_collectRound h).index_lt⟩
    · obtain ⟨r, hloop, hread, _⟩ := loop_readMath source hc hk hcloser
      exact ⟨r, ⟨hloop, fun _ _ h => (passes_of_collectRound h).index_lt⟩, hread⟩
    · exact ⟨loop_readInlineMath source hc hk, fun _ _ h => (passes_of_spanRound h).index_lt⟩
  · intro source options settings hsettings
    obtain ⟨n, t, hle, hruns, hend⟩ := exists_runs (.of settings source) (.initial settings source)
      (terminated_initial settings source)
    refine ⟨n, t, Nat.le_trans hle (weight_initial_le settings source), hruns, ?_⟩
    have hparse : parseDocument source options =
        (Document.parse settings source).mapError .structural := by
      rw [parseDocument, withSettings, hsettings]
    rw [hparse, Document.parse_eq, outcomeOf]
    refine hend.imp ?_ ?_
    · rintro ⟨hstep, houtcome⟩
      rw [houtcome]
      exact ⟨hstep, rfl⟩
    · rintro ⟨f, hstep, houtcome⟩
      rw [houtcome]
      exact ⟨f, hstep, rfl⟩

/-- Two spans of mathematics that share a double dollar: a step, two loops, one inside the other, and a
document. -/
theorem reading_terminates_sample :
    (∃ t, (State.initial {} "$a$$b$").cursor.Terminated ∧
      (State.initial {} "$a$$b$").step (.of {} "$a$$b$") = .ok (some t) ∧
      (State.initial {} "$a$$b$").inline? = none ∧
      (State.initial {} "$a$$b$").cursor.index < t.cursor.index) ∧
    (Text.cursor "$a$$b$").EndsOnce ∧ (Text.cursor "$a$$b$").current.kind ≠ .endOfFile ∧
    Loop.Advances (·.1)
      (SpanRound (Text.ofString "$a$$b$").toArray (closerKind (Text.cursor "$a$$b$").current)
        (mathCloser (Text.cursor "$a$$b$").current.text))
      ((Text.cursor "$a$$b$").advance, (Text.cursor "$a$$b$").marker, [])
      (readInlineMath (Text.ofString "$a$$b$").toArray (Text.cursor "$a$$b$")) ∧
    ({} : Options).resolve = .ok {} ∧
    ∃ n t, n ≤ 2 * (Text.tokens "$a$$b$").length ∧
      Runs (.of {} "$a$$b$") n (.initial {} "$a$$b$") t := by
  have hs : (State.initial {} "$a$$b$").cursor.Terminated := terminated_initial {} "$a$$b$"
  have hends : (Text.cursor "$a$$b$").EndsOnce :=
    ⟨Text.terminated_cursor _ _, by decide +kernel⟩
  have hk : (Text.cursor "$a$$b$").current.kind ≠ .endOfFile := by decide +kernel
  have hgoes : ((State.initial {} "$a$$b$").step (.of {} "$a$$b$")).toOption.join.isSome = true := by
    decide +kernel
  have hstep : ∃ t, (State.initial {} "$a$$b$").step (.of {} "$a$$b$") = .ok (some t) := by
    cases h : (State.initial {} "$a$$b$").step (.of {} "$a$$b$") with
    | error f =>
      rw [h] at hgoes
      cases hgoes
    | ok next? =>
      rw [h] at hgoes
      exact (Option.isSome_iff_exists.mp hgoes).imp fun t ht => congrArg Except.ok ht
  obtain ⟨t, hstep⟩ := hstep
  obtain ⟨_, _, _, _, _, hmath⟩ := reading_terminates.2.1 _ hends
  obtain ⟨n, u, hle, hruns, _⟩ := reading_terminates.2.2 "$a$$b$" {} {} rfl
  have hlt := reading_terminates.1 _ 0 _ t hs (.step hstep (.refl t)) (.inl rfl)
  exact ⟨⟨t, hs, hstep, rfl, hlt⟩, hends, hk,
    (hmath hk _).2.1, rfl, n, u, hle, hruns⟩

end LatexMarkdown
