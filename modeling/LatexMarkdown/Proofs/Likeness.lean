import LatexMarkdown.Proofs.Likeness.Block
/-!
  Steps and runs that are alike.

  From states that are alike, at the same token, one step of either reading leads to states that
  are alike, or both fail (`agree_step_inside`, `agree_takeBlock`).  Where the tokens of the two
  lists correspond one to one this is all there is to show of a run (`agree_outcome`).
-/
namespace LatexMarkdown.Parse.Likeness

variable {R : Likeness} {s s' : State} {i i' : OpenInline}

/-- A step in inline content. -/
theorem agree_step_inside (h : R.Alike s s') (hi : s.inline? = some i) (hi' : s'.inline? = some i')
    (hii : R.OfContent i i') (hc : R.At s.cursor s'.cursor) :
    Agree (Option.Rel R.Stands) (s.step R.ctx) (s'.step R.ctx') := by
  simp only [State.step, hi, hi']
  exact (agree_takeInline h hii hc).map fun _ _ hs => .some hs

/-- A step between blocks, where no comment comes first. -/
theorem agree_takeBlock (h : R.Alike s s') (hn : s.inline? = none)
    (hc : R.At s.cursor.skipSpacing s'.cursor.skipSpacing) :
    Agree (Option.Rel R.Stands) (s.takeBlock R.ctx) (s'.takeBlock R.ctx') := by
  have halike := h.withCursor s.cursor.skipSpacing s'.cursor.skipSpacing
  simp only [State.takeBlock, hc.kind]
  split
  · exact (agree_endDocument halike).map fun _ _ _ => .none
  · next hk => exact (agree_endEnvironment halike hc hk).map fun _ _ hs => .some hs
  · exact (agree_beginBlock halike hn hc).map fun _ _ hs => .some hs

theorem step_between {ctx : Context} (hn : s.inline? = none) : s.step ctx = s.takeBlock ctx := by
  simp only [State.step, hn]

/-- A step, where nothing is left out of the second list. -/
theorem agree_step (hthin : ¬ R.thin) (h : R.Stands s s') :
    Agree (Option.Rel R.Stands) (s.step R.ctx) (s'.step R.ctx') := by
  cases hi : s.inline? with
  | none =>
    rw [step_between hi, step_between (h.alike.inline?_eq_none hi)]
    exact agree_takeBlock h.alike hi (h.near.at_skipSpacing fun ht => absurd ht hthin)
  | some i =>
    obtain ⟨i', hi', hii⟩ := h.alike.exists_content hi
    obtain ⟨b, hc⟩ := h.along (by rw [hi]; rfl)
    exact agree_step_inside h.alike hi hi' hii (hc.at hthin)

/-- What two runs come to is related where it is related if they end, and related for the rest of them
if they go on. -/
theorem agree_outcome_of_step {ctx ctx' : Context} {q : State → State → Prop}
    {r : List Block × List Diagnostic → List Block × List Diagnostic → Prop}
    (h : Agree (Option.Rel q) (s.step ctx) (s'.step ctx')) (hs : s.cursor.Terminated)
    (hs' : s'.cursor.Terminated) (hend : r (s.blocks, s.diagnostics) (s'.blocks, s'.diagnostics))
    (hnext : ∀ t t' ht ht', s.step ctx = .ok (some t) → q t t' →
      Agree r (t.outcome ctx ht) (t'.outcome ctx' ht')) :
    Agree r (s.outcome ctx hs) (s'.outcome ctx' hs') := by
  generalize hstep : s.step ctx = x at h
  generalize hstep' : s'.step ctx' = x' at h
  cases h with
  | error =>
    rw [State.outcome_of_error hs hstep, State.outcome_of_error hs' hstep']
    exact .error _ _
  | ok h =>
    cases h with
    | none =>
      rw [State.outcome_of_none hs hstep, State.outcome_of_none hs' hstep']
      exact .ok hend
    | some h =>
      rw [State.outcome_of_some hs hstep, State.outcome_of_some hs' hstep']
      exact hnext _ _ _ _ hstep h

/-- Runs from states that are alike come to blocks that are related, or fail. -/
theorem agree_outcome (hthin : ¬ R.thin) {s s' : State} (h : R.Stands s s') :
    Agree (fun x x' => R.blocks x.1 x'.1) (s.outcome R.ctx h.near.terminated)
      (s'.outcome R.ctx' h.near.terminated') := by
  exact agree_outcome_of_step (agree_step hthin h) _ _ h.alike.blocks
    fun t t' _ _ hstep ht => agree_outcome hthin ht
termination_by s.weight
decreasing_by exact (State.step_progress h.near.terminated hstep).weight_lt h.near.terminated

end LatexMarkdown.Parse.Likeness
