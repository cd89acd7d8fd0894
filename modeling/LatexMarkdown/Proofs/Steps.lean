import LatexMarkdown.Conversion
import LatexMarkdown.Proofs.Steps.Block
/-!
  What a run comes to, by what every change keeps.

  Main statement: `Parse.State.yields_outcome`.  A property of states that every change keeps holds
  where a run ends, with nothing open, and where it fails.  `exists_of_parseDocument_ok` and
  `exists_of_parseDocument_structural` take this to documents.
-/
namespace LatexMarkdown

namespace Parse

variable {ctx : Context} {s t : State} {holds : State → Prop}

/-- What every change keeps, changes one after the other keep. -/
theorem Changes.keep (hkeep : ∀ s t, holds s → Change ctx s t → holds t)
    (h : Changes ctx s t) (hs : holds s) : holds t := by
  induction h with
  | refl => exact hs
  | tail _ hchange ih => exact hkeep _ _ ih hchange

/-- What every change keeps holds where a run ends, and where it fails. -/
theorem State.yields_outcome (hkeep : ∀ s t, holds s → Change ctx s t → holds t) (hs : holds s)
    (h : s.cursor.Terminated) :
    Yields
      (fun r => ∃ t, holds t ∧ t.inline? = none ∧ t.environments = [] ∧
        r = (t.blocks, t.diagnostics))
      (fun f => ∃ t, holds t ∧ Fails t f) (s.outcome ctx h) := by
  -- Along the run, in which every step lowers the weight.
  induction hn : s.weight using Nat.strongRecOn generalizing s with
  | ind n ih =>
  have hyields := yields_step ctx s
  cases hstep : s.step ctx with
  | error f =>
    rw [outcome_of_error h hstep]
    rw [hstep] at hyields
    exact ⟨s, hs, hyields⟩
  | ok next? =>
    rw [hstep] at hyields
    cases next? with
    | none =>
      rw [outcome_of_none h hstep]
      exact ⟨s, hs, hyields.1, hyields.2, rfl⟩
    | some t =>
      rw [outcome_of_some h hstep]
      exact ih t.weight (hn ▸ (step_progress h hstep).weight_lt h) (Changes.keep hkeep hyields hs) _
        rfl

/-- What every change keeps holds where a run over a source ends, and where it fails. -/
theorem yields_outcomeOf {settings : Settings} {source : Text}
    (hkeep : ∀ s t, holds s → Change (.of settings source) s t → holds t)
    (hs : holds (.initial settings source)) :
    Yields
      (fun r => ∃ t, holds t ∧ t.inline? = none ∧ t.environments = [] ∧
        r = (t.blocks, t.diagnostics))
      (fun f => ∃ t, holds t ∧ Fails t f) (outcomeOf settings source) :=
  State.yields_outcome hkeep hs (State.terminated_initial settings source)

end Parse

/-! ## Documents -/

variable {source : Text} {options : Options}

/-- A document that is read is what a run over its source comes to. -/
theorem exists_of_parseDocument_ok {parsed : Parsed}
    (h : parseDocument source options = .ok parsed) :
    ∃ settings blocks diagnostics, options.resolve = .ok settings ∧
      Parse.outcomeOf settings source = .ok (blocks, diagnostics) ∧
      parsed = {
        document :=
          { info := .span 0 source.length
            children := blocks.reverse
            lineStarts := (LineTable.ofText source).toList }
        diagnostics := diagnostics.reverse } := by
  rw [parseDocument, withSettings] at h
  split at h
  · cases h
  · next settings hsettings =>
    rw [Document.parse_eq] at h
    cases houtcome : Parse.outcomeOf settings source with
    | error f => rw [houtcome] at h; cases h
    | ok r =>
      rw [houtcome] at h
      exact ⟨settings, r.1, r.2, hsettings, houtcome, (Except.ok.inj h).symm⟩

/-- A structural error is the failure of a run over the source, with its place. -/
theorem exists_of_parseDocument_structural {e : StructuralError}
    (h : parseDocument source options = .error (.structural e)) :
    ∃ settings f, options.resolve = .ok settings ∧
      Parse.outcomeOf settings source = .error f ∧ e = f.located (LineTable.ofText source) := by
  rw [parseDocument, withSettings] at h
  split at h
  · cases h
  · next settings hsettings =>
    rw [Document.parse_eq] at h
    cases houtcome : Parse.outcomeOf settings source with
    | ok r => rw [houtcome] at h; cases h
    | error f =>
      rw [houtcome] at h
      exact ⟨settings, f, hsettings, houtcome,
        (ConversionError.structural.inj (Except.error.inj h)).symm⟩

end LatexMarkdown
