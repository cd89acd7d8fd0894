import LatexMarkdown.Proofs.Embedding.Opening
/-!
  Runs through a frame.

  Where the list keeps its own end, a run through the frame comes to the image of what the run
  comes to (`Frame.outcome_state`).  Where a tail stands behind it, the two runs go along until one
  of them looks beyond the list (`Frame.run_cases`), and before tokens that close nothing a run in
  which something is open fails (`outcome_of_barren`).
-/
namespace LatexMarkdown.Parse

variable {ctx ctx' : Context} {s : State} {i : OpenInline}

/-! ## Nothing is closed any more -/

/-- Only a paragraph by itself is surrounded by a paragraph. -/
theorem paragraph_of_surround (h : i.surround = .paragraph) :
    ∃ start, i.line = .paragraph start ∧ i.run.braces = [] ∧ i.arguments = [] := by
  obtain ⟨line, ⟨fragments, braces⟩, arguments⟩ := i
  cases braces with
  | cons brace braces => simp [OpenInline.surround] at h
  | nil =>
    cases arguments with
    | cons argument arguments => simp [OpenInline.surround] at h
    | nil =>
      cases line with
      | paragraph start => exact ⟨start, rfl, rfl, rfl⟩
      | heading command level opener => simp [OpenInline.surround] at h
      | label item opener => simp [OpenInline.surround] at h
      | cell t => simp [OpenInline.surround] at h

@[simp] theorem surround_withFragments (i : OpenInline) (f : Fragments) :
    (i.withFragments f).surround = i.surround := rfl

theorem environments_ne_nil_addBlocks (h : s.environments ≠ []) (blocks : List Block) :
    (s.addBlocks blocks).environments ≠ [] := by
  unfold State.addBlocks
  split
  · next heq => exact absurd heq h
  · simp

/-- No end marker, no end. -/
theorem expectEnd_of_ne {c : Cursor} (hk : c.current.kind ≠ .envEnd) (begun : Marker) :
    ∃ e, State.expectEnd c begun = .error e := by
  simp only [State.expectEnd, hk, false_and, if_false]
  split <;> exact ⟨_, rfl⟩

/-- The body of a raw environment that nothing ends is an error. -/
theorem beginEnvironment_of_raw (ctx : Context) (hc : s.cursor.Terminated)
    (hname : s.cursor.current.text ∈ rawEnvironments) {rest : List Token}
    (ha : s.cursor.advance.ahead = rest) (hrest : ∀ t ∈ rest, t.kind = .rawText) :
    ∃ e, s.beginEnvironment ctx = .error e := by
  -- No token that follows is an end marker.
  have hkind : ∀ c : Cursor, s.cursor.advance.Reaches c → c.current.kind ≠ .envEnd := by
    intro c hreach
    have hterminated := hreach.terminated hc.advance
    cases hahead : c.ahead with
    | nil =>
      rw [Cursor.current_of_ahead_nil hahead, show _ = TokenKind.endOfFile from hterminated]
      decide
    | cons t more =>
      have hmem : t ∈ rest := by
        rw [← ha]
        apply hreach.ahead_suffix.subset
        rw [hahead]
        exact List.mem_cons_self
      rw [Cursor.current_of_ahead hahead, hrest t hmem]
      decide
  have hbody := hkind _ (State.reaches_body s.cursor.advance)
  have hcode : ∃ e, s.takeCode s.cursor.advance s.cursor.marker = .error e := by
    obtain ⟨e, he⟩ := expectEnd_of_ne hbody s.cursor.marker
    exact ⟨e, by simp only [State.takeCode, he]; rfl⟩
  have hcomment : ∃ e, s.skipComment s.cursor.advance s.cursor.marker = .error e := by
    obtain ⟨e, he⟩ := expectEnd_of_ne hbody s.cursor.marker
    exact ⟨e, by simp only [State.skipComment, he]; rfl⟩
  have hraw : EnvironmentKind.ofName? s.cursor.marker.text = some .codeBlock
      ∨ EnvironmentKind.ofName? s.cursor.marker.text = some .comment := by
    have hall : ∀ name ∈ rawEnvironments, EnvironmentKind.ofName? name = some .codeBlock
        ∨ EnvironmentKind.ofName? name = some .comment := by decide
    exact hall _ hname
  simp only [State.beginEnvironment]
  cases State.checkDepth s.depth s.cursor.marker with
  | error e => exact ⟨e, rfl⟩
  | ok _ =>
    rcases hraw with hk | hk
    · simp only [hk]
      exact hcode
    · simp only [hk]
      exact hcomment

/-- Only a table cell by itself is surrounded by a cell. -/
theorem cell_of_surround (h : i.surround = .cell) :
    ∃ t, i.line = .cell t ∧ i.run.braces = [] ∧ i.arguments = [] := by
  obtain ⟨line, ⟨fragments, braces⟩, arguments⟩ := i
  cases braces with
  | cons brace braces => simp [OpenInline.surround] at h
  | nil =>
    cases arguments with
    | cons argument arguments => simp [OpenInline.surround] at h
    | nil =>
      cases line with
      | cell t => exact ⟨t, rfl, rfl, rfl⟩
      | paragraph start => simp [OpenInline.surround] at h
      | heading command level opener => simp [OpenInline.surround] at h
      | label item opener => simp [OpenInline.surround] at h

/-- At the end of the tokens everything but a paragraph is an error. -/
theorem step_of_open (hi : s.inline? = some i) (hp : i.surround ≠ .paragraph)
    (hk : s.cursor.current.kind = .endOfFile) : ∃ e, s.step ctx = .error e := by
  have htake : i.surround.endsAt s.inList s.cursor.current = false →
      ∃ e, s.step ctx = .error e := by
    intro he
    refine ⟨⟨.unclosedGroup (i.surround.opener s.cursor.marker).text,
      i.surround.opener s.cursor.marker⟩, ?_⟩
    rw [State.step_of_not_endsAt hi he]
    simp only [State.takeToken, Cursor.marker, hk]
    rfl
  cases hr : i.surround with
  | paragraph => exact absurd hr hp
  | group opener => exact htake (by simp [hr, Surround.endsAt, hk])
  | label opener => exact htake (by simp [hr, Surround.endsAt, hk])
  | cell =>
    obtain ⟨t, hl, hb, ha⟩ := cell_of_surround hr
    have he : i.surround.endsAt s.inList s.cursor.current = true := by
      simp [hr, Surround.endsAt, hk]
    have hend : ∃ e, State.expectEnd s.cursor
        (s.finishRow (s.finishCell t i.run.fragments)).marker = .error e :=
      expectEnd_of_ne (by rw [hk]; decide) _
    obtain ⟨e, hend⟩ := hend
    refine ⟨e, ?_⟩
    rw [State.step_of_endsAt hi he]
    simp only [State.closeInline, hb, ha, hl, State.closeCell, hk, State.closeTable, hend]
    rfl

/-- The same in front of an environment. -/
theorem step_of_nested (hi : s.inline? = some i) (hp : i.surround ≠ .paragraph)
    (hk : s.cursor.current.kind = .envBegin) : ∃ e, s.step ctx = .error e := by
  have he : i.surround.endsAt s.inList s.cursor.current = false :=
    Surround.endsAt_of_ne_paragraph hp (.inr hk) _
  refine ⟨⟨.nestedEnvironment s.cursor.marker.text, s.cursor.marker⟩, ?_⟩
  rw [State.step_of_not_endsAt hi he]
  simp only [State.takeToken, Cursor.marker, hk]
  rfl

/-- Before tokens that close nothing, something is open or an environment of raw text begins. -/
structure Doomed (s : State) : Prop where
  barren : Barren s.cursor.ahead
  stuck : Stuck s ∨ ∃ t ∈ s.cursor.ahead, t.kind = .envBegin

/-- A doomed state fails at once or leads to another. -/
def Sinks (ctx : Context) (s : State) : Prop :=
  (∃ e, s.step ctx = .error e) ∨ ∃ t, State.Leads ctx s t ∧ t.weight < s.weight ∧ Doomed t

/-- A line break passed is none of the tokens that matter. -/
theorem Doomed.of_newLine {t : State} {u : Token} {rest : List Token} (hd : Doomed s)
    (ha : s.cursor.ahead = u :: rest) (hu : u.kind = .newLine) (hrest : Barren rest)
    (ht : t.cursor.ahead = rest) (hstuck : Stuck s → Stuck t) : Doomed t := by
  refine ⟨ht ▸ hrest, hd.stuck.imp hstuck ?_⟩
  rintro ⟨v, hv, hk⟩
  rw [ha] at hv
  rcases List.mem_cons.mp hv with rfl | hv
  · rw [hu] at hk
    cases hk
  · exact ⟨v, ht ▸ hv, hk⟩

theorem Doomed.between (hd : Doomed s) (h : s.cursor.Terminated) (hi : s.inline? = none) :
    Sinks ctx s := by
  have hb := hd.barren
  cases ha : s.cursor.ahead with
  | nil =>
    -- The document ends inside an environment.
    have hk : s.cursor.current.kind = .endOfFile := by
      rw [Cursor.current_of_ahead_nil ha]
      exact h
    have henv : s.environments ≠ [] := by
      rcases hd.stuck with (henv | ⟨i, hi', _⟩) | ⟨t, ht, _⟩
      · exact henv
      · rw [hi] at hi'
        cases hi'
      · rw [ha] at ht
        cases ht
    obtain ⟨e, outer, henv⟩ := List.exists_cons_of_ne_nil henv
    left
    rw [State.step_of_endOfFile hi hk]
    exact ⟨_, by rw [State.endDocument, henv]; rfl⟩
  | cons t rest =>
    rw [ha] at hb
    cases hb with
    | newLine ht hrest =>
      have hadvance := Cursor.ahead_advance ha (by rw [ht]; decide)
      refine .inr ⟨_, .of_isSpacing hi ha (by simp [Token.isSpacing, ht]), ?_,
        hd.of_newLine ha ht hrest hadvance id⟩
      simp only [State.weight, hadvance, ha, List.length_cons]
      omega
    | raw ht hname hrest =>
      have hcurrent := Cursor.current_of_ahead ha
      obtain ⟨e, he⟩ := beginEnvironment_of_raw ctx h (by rwa [hcurrent])
        (Cursor.ahead_advance ha (by rw [ht]; decide)) hrest
      left
      rw [State.step_of_envBegin hi (by rw [hcurrent, ht])]
      exact ⟨e, by rw [he]; rfl⟩

/-- A paragraph ends or goes on with a space; what is stuck is around it. -/
theorem Doomed.paragraph (hd : Doomed s) (h : s.cursor.Terminated) (hi : s.inline? = some i)
    (hp : i.surround = .paragraph) : Sinks ctx s := by
  obtain ⟨start, hl, hbraces, harguments⟩ := paragraph_of_surround hp
  have hone : s.inline?.isSome = true := by rw [hi]; rfl
  have henv : Stuck s → s.environments ≠ [] := by
    rintro (henv | ⟨j, hj, hne⟩)
    · exact henv
    · rw [hi] at hj
      cases hj
      exact absurd hp hne
  have hclose : Surround.endsAt s.inList s.cursor.current .paragraph = true → Sinks ctx s := by
    intro he
    refine .inr ⟨_, .of_closeParagraph hi hl hbraces harguments he, ?_, ?_, ?_⟩
    · simp [State.weight, hone]
    · rw [State.cursor_closeParagraph]
      exact hd.barren
    · refine hd.stuck.imp (fun hstuck => .inl ?_) fun hex => ?_
      · simp only [State.closeParagraph]
        split
        · exact henv hstuck
        · exact environments_ne_nil_addBlocks (s := { s with inline? := none }) (henv hstuck) _
      · rwa [State.cursor_closeParagraph]
  cases he : Surround.endsAt s.inList s.cursor.current .paragraph with
  | true => exact hclose he
  | false =>
    have hb := hd.barren
    cases ha : s.cursor.ahead with
    | nil =>
      -- The end of the tokens ends a paragraph.
      rw [Cursor.current_of_ahead_nil ha] at he
      simp [Surround.endsAt, show _ = TokenKind.endOfFile from h] at he
    | cons t rest =>
      have hcurrent := Cursor.current_of_ahead ha
      rw [ha] at hb
      cases hb with
      | newLine ht hrest =>
        have hadvance := Cursor.ahead_advance ha (by rw [ht]; decide)
        refine .inr ⟨_, .of_newLine hi (by rw [hcurrent, ht]) (by rwa [hp]), ?_,
          hd.of_newLine ha ht hrest hadvance fun hstuck => .inl (henv hstuck)⟩
        simp only [State.weight, State.gather, hadvance, ha, hone, List.length_cons,
          Option.isSome_some]
        omega
      | raw ht hname hrest =>
        rw [hcurrent] at he
        simp [Surround.endsAt, ht] at he

/-- In anything but a paragraph a line break is a space, and nothing else is right. -/
theorem Doomed.inside (hd : Doomed s) (h : s.cursor.Terminated) (hi : s.inline? = some i)
    (hp : i.surround ≠ .paragraph) : Sinks ctx s := by
  have hone : s.inline?.isSome = true := by rw [hi]; rfl
  have hb := hd.barren
  cases ha : s.cursor.ahead with
  | nil =>
    refine .inl (step_of_open hi hp ?_)
    rw [Cursor.current_of_ahead_nil ha]
    exact h
  | cons t rest =>
    have hcurrent := Cursor.current_of_ahead ha
    rw [ha] at hb
    cases hb with
    | newLine ht hrest =>
      have hk : s.cursor.current.kind = .newLine := by rw [hcurrent, ht]
      have hadvance := Cursor.ahead_advance ha (by rw [ht]; decide)
      have he : i.surround.endsAt s.inList s.cursor.current = false :=
        Surround.endsAt_of_ne_paragraph hp (.inl hk) _
      refine .inr ⟨_, .of_newLine hi hk he, ?_, hd.of_newLine ha ht hrest hadvance fun _ =>
        .inr ⟨_, rfl, by rwa [surround_withFragments]⟩⟩
      simp only [State.weight, State.gather, hadvance, ha, hone, List.length_cons,
        Option.isSome_some]
      omega
    | raw ht hname hrest => exact .inl (step_of_nested hi hp (by rw [hcurrent, ht]))

/-- The run of a doomed state fails. -/
theorem Doomed.outcome (hd : Doomed s) (h : s.cursor.Terminated) :
    ∃ e, s.outcome ctx h = .error e := by
  induction hn : s.weight using Nat.strong_induction_on generalizing s with
  | _ n ih =>
  have hsinks : Sinks ctx s := by
    cases hi : s.inline? with
    | none => exact hd.between h hi
    | some i =>
      by_cases hp : i.surround = .paragraph
      · exact hd.paragraph h hi hp
      · exact hd.inside h hi hp
  rcases hsinks with ⟨e, he⟩ | ⟨t, hlead, hlt, hdt⟩
  · exact ⟨e, State.outcome_of_error h he⟩
  · obtain ⟨h', heq⟩ := hlead h
    obtain ⟨e, he⟩ := ih t.weight (hn ▸ hlt) hdt h' rfl
    exact ⟨e, heq.trans he⟩

namespace Frame

variable {φ : Frame}

/-! ## Runs -/

/-- What a run comes to, moved, with the blocks and diagnostics from before. -/
def outcome (φ : Frame) :
    Except Failure (List Block × List Diagnostic) → Except Failure (List Block × List Diagnostic)
  | .ok (blocks, diagnostics) =>
    .ok (blocks.map (Block.mapOffsets φ.offset) ++ φ.blocks,
      diagnostics.map φ.diagnostic ++ φ.diagnostics)
  | .error e => .error (φ.failure e)

/-- Where the list keeps its own end, the whole run is followed. -/
theorem outcome_state (hφ : φ.Lawful) (hnone : φ.ending? = none)
    (hc : φ.Carries ctx ctx' s.cursor) (h : s.cursor.Terminated)
    (h' : (φ.state s).cursor.Terminated) :
    (φ.state s).outcome ctx' h' = φ.outcome (s.outcome ctx h) := by
  induction hn : s.weight using Nat.strong_induction_on generalizing s with
  | _ n ih =>
  have hsees : ∀ c, φ.Sees c := fun c => .inl hnone
  have hfollows := step_state (s := s) hφ hc ⟨hsees _, fun _ => hsees _⟩
  cases hs : s.step ctx with
  | error e =>
    rw [hs] at hfollows
    rw [State.outcome_of_error h hs, State.outcome_of_error h' (hfollows.1 hnone)]
    rfl
  | ok next? =>
    rw [hs] at hfollows
    cases next? with
    | none =>
      rw [State.outcome_of_none h hs, State.outcome_of_none h' hfollows]
      rfl
    | some t =>
      obtain ⟨y, hy, honward⟩ := hfollows
      rcases honward with rfl | ⟨_, _, hending, _⟩
      · have hstep : (φ.state s).step ctx' = .ok (some (φ.state t)) := hy
        have hreach := (State.step_progress h hs).reaches
        rw [State.outcome_of_some h hs, State.outcome_of_some h' hstep]
        exact ih t.weight (hn ▸ (State.step_progress h hs).weight_lt h) (hc.of_reaches hreach) _ _ rfl
      · exact absurd hnone hending

theorem kind_place_of_step (h : s.step ctx = .ok none) :
    (place s).current.kind = .endOfFile := by
  unfold State.step at h
  cases hi : s.inline? with
  | none =>
    simp only [hi, State.takeBlock] at h
    rw [place, hi]
    show s.cursor.skipSpacing.current.kind = .endOfFile
    split at h
    · assumption
    · obtain ⟨_, _, h⟩ := exists_of_map_ok h
      cases h
    · obtain ⟨_, _, h⟩ := exists_of_map_ok h
      cases h
  | some i =>
    simp only [hi] at h
    obtain ⟨_, _, h⟩ := exists_of_map_ok h
    cases h

theorem reaches_place (s : State) : s.cursor.Reaches (place s) := by
  unfold place
  split
  · exact .refl _
  · exact Cursor.reaches_skipSpacing _

/-- Where a tail stands behind the list, the run fails, or both runs come to where the next step
looks beyond the list. -/
theorem run_cases (hφ : φ.Lawful) (hending : φ.ending? ≠ none) (hc : φ.Carries ctx ctx' s.cursor)
    (h : s.cursor.Terminated) (h' : (φ.state s).cursor.Terminated) :
    ((∃ e, s.outcome ctx h = .error e) ∧
        (Barren φ.tail → ∃ e, (φ.state s).outcome ctx' h' = .error e)) ∨
      ∃ t, State.Leads ctx s t ∧ State.Leads ctx' (φ.state s) (φ.state t) ∧
        s.cursor.Reaches t.cursor ∧ (φ.cursor s.cursor).Reaches (φ.cursor t.cursor) ∧
        ¬ φ.Ready (place t) := by
  induction hn : s.weight using Nat.strong_induction_on generalizing s with
  | _ n ih =>
  by_cases hready : φ.Ready (place s)
  · have hfollows := step_state hφ hc hready
    cases hs : s.step ctx with
    | error e =>
      rw [hs] at hfollows
      refine .inl ⟨⟨e, State.outcome_of_error h hs⟩, fun hbarren => ?_⟩
      obtain ⟨e', he'⟩ := hfollows.2 hbarren
      exact ⟨e', State.outcome_of_error h' he'⟩
    | ok next? =>
      rw [hs] at hfollows
      cases next? with
      | none =>
        -- The list has no end of its own inside.
        have hne : (place s).ahead ≠ [] := hready.sees.resolve_left hending
        have hplace := hc.of_reaches (reaches_place s)
        obtain ⟨t, rest, ha⟩ := List.exists_cons_of_ne_nil hne
        have hkind := kind_place_of_step hs
        rw [Cursor.current_of_ahead ha] at hkind
        exact absurd hkind (hplace.inside t (by rw [ha]; exact List.mem_cons_self))
      | some t =>
        obtain ⟨y, hy, honward⟩ := hfollows
        have hreach := (State.step_progress h hs).reaches
        have hterminated := hreach.terminated h
        rcases honward with rfl | ⟨hnil, hstuck, _, hframed⟩
        · have hstep : (φ.state s).step ctx' = .ok (some (φ.state t)) := hy
          have hterminated' := (State.step_progress h' hstep).terminated h'
          have hlead : State.Leads ctx s t := .of_step hs
          have hlead' : State.Leads ctx' (φ.state s) (φ.state t) := .of_step hstep
          rcases ih t.weight (hn ▸ (State.step_progress h hs).weight_lt h) (hc.of_reaches hreach)
            hterminated hterminated' rfl with
            ⟨⟨e, he⟩, hbarren⟩ | ⟨u, hu, hu', hreachu, hreachu', hrest⟩
          · refine .inl ⟨⟨e, ?_⟩, fun hb => ?_⟩
            · rw [State.outcome_of_some h hs, he]
            · obtain ⟨e', he'⟩ := hbarren hb
              exact ⟨e', by rw [State.outcome_of_some h' hstep, he']⟩
          · have hreach' : (φ.cursor s.cursor).Reaches (φ.cursor t.cursor) :=
              (State.step_progress h' hstep).reaches
            exact .inr ⟨u, hlead.trans hu, hlead'.trans hu', hreach.trans hreachu,
              hreach'.trans hreachu', hrest⟩
        · -- Something stays open at the end of the list.
          refine .inl ⟨?_, fun hbarren => ?_⟩
          · have hdoomed : Doomed t := ⟨hnil ▸ .nil, .inl hstuck⟩
            rw [State.outcome_of_some h hs]
            exact hdoomed.outcome _
          · obtain ⟨t', rfl, hstuck', hrest⟩ := hframed hbarren
            have hstep : (φ.state s).step ctx' = .ok (some t') := hy
            have hdoomed : Doomed t' := ⟨hrest, .inl hstuck'⟩
            rw [State.outcome_of_some h' hstep]
            exact hdoomed.outcome _
  · exact .inr ⟨s, .refl s, .refl _, .refl _, .refl _, hready⟩

end Frame

end LatexMarkdown.Parse
