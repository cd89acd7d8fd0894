import LatexMarkdown.Proofs.Embedding.Closing
/-!
  A step through a frame.

  Main statement: `Frame.step_state`.  Where a step looks at tokens of the list only (`Ready`), the
  step through the frame follows it.
-/
namespace LatexMarkdown.Parse

/-- What a step through a frame comes to; none at the end of the document. -/
def Onward? (φ : Frame) (next? : Option State) (y : Except Failure (Option State)) : Prop :=
  match next? with
  | none => y = .ok none
  | some t => ∃ y', y = some <$> y' ∧ Onward φ t y'

namespace Follows

variable {φ : Frame} {α β γ δ : Type}

/-- A result is wrapped on both sides. -/
theorem map {ok : α → Except Failure β → Prop} {ok' : γ → Except Failure δ → Prop}
    {x : Except Failure α} {y : Except Failure β} {f : α → γ} {g : β → δ}
    (h : Follows φ ok x y) (hok : ∀ a y, ok a y → ok' (f a) (g <$> y)) :
    Follows φ ok' (f <$> x) (g <$> y) := by
  cases x with
  | ok a => exact hok a y h
  | error e =>
    refine ⟨fun hnone => ?_, fun hbarren => ?_⟩
    · rw [h.1 hnone]
      rfl
    · obtain ⟨e', he'⟩ := h.2 hbarren
      rw [he']
      exact ⟨e', rfl⟩

theorem onward? {x y : Except Failure State} (h : Follows φ (Onward φ) x y) :
    Follows φ (Onward? φ) (some <$> x) (some <$> y) :=
  h.map fun _ y hy => ⟨y, rfl, hy⟩

end Follows

namespace Frame

variable {φ : Frame} {ctx ctx' : Context} {s : State}

/-! ## Opening -/

theorem beginHeading_state (hφ : φ.Lawful) (hc : s.cursor.Terminated) (h : φ.Sees s.cursor)
    (level : Nat) :
    Follows φ (Gives φ.state) (s.beginHeading level) ((φ.state s).beginHeading level) := by
  have hreach := reaches_skipOptionalArgument s.cursor.advance
  simp only [State.beginHeading, cursor_state, marker_cursor h, advance_cursor h,
    missingArgument_marker, skipOptionalArgument_cursor hφ hc.advance, depth_state]
  refine (startGroup_cursor hφ (hreach.terminated hc.advance) s.cursor.marker _).bind
    fun opened ho => ?_
  have hopened := (hreach.trans (reaches_of_startGroup ho)).terminated hc.advance
  have hsees : φ.Sees opened := .of_kind hopened (by rw [kind_of_startGroup ho]; decide)
  rw [marker_cursor hsees]
  refine (φ.checkDepth_marker s.depth opened.marker).bind fun _ _ => ?_
  show Except.ok _ = Except.ok _
  rw [advance_cursor hsees]
  rfl

/-- The cursor behind a body of raw text, when there is one. -/
theorem body_cursor (hφ : φ.Lawful) {c : Cursor} (hc : c.Terminated) :
    (if (φ.cursor c).current.kind = .rawText then (φ.cursor c).advance else φ.cursor c)
        = φ.cursor (if c.current.kind = .rawText then c.advance else c) ∧
      (if (φ.cursor c).current.kind = .rawText then (φ.cursor c).current.text else [])
        = (if c.current.kind = .rawText then c.current.text else []) := by
  have hkind : (φ.cursor c).current.kind = .rawText ↔ c.current.kind = .rawText :=
    kind_current hφ hc (by decide) (by decide) (by decide)
  by_cases hk : c.current.kind = .rawText
  · have hsees : φ.Sees c := .of_kind hc (by rw [hk]; decide)
    simp only [hk, if_true, advance_cursor hsees, current_cursor hsees, kind_token, text_token,
      and_self]
  · simp only [hkind, hk, if_false, and_self]

theorem takeCode_state (hφ : φ.Lawful) {c : Cursor} (hc : c.Terminated) (begun : Marker) :
    Follows φ (Gives φ.state) (s.takeCode c begun)
      ((φ.state s).takeCode (φ.cursor c) (φ.marker begun)) := by
  obtain ⟨hcursor, htext⟩ := body_cursor hφ hc
  simp only [State.takeCode, hcursor, htext, text_marker]
  refine (expectEnd_cursor hφ ((State.reaches_body c).terminated hc) begun).bind
    fun after _ => ?_
  show Except.ok _ = Except.ok _
  rw [lastStop_cursor hφ, ← addBlocks_state]
  rfl

theorem skipComment_state (hφ : φ.Lawful) {c : Cursor} (hc : c.Terminated) (begun : Marker) :
    Follows φ (Gives φ.state) (s.skipComment c begun)
      ((φ.state s).skipComment (φ.cursor c) (φ.marker begun)) := by
  unfold State.skipComment
  rw [(body_cursor hφ hc).1]
  exact (expectEnd_cursor hφ ((State.reaches_body c).terminated hc) begun).bind
    fun after _ => .pure (g := φ.state) { s with cursor := after }

theorem takeMathEnvironment_state (hφ : φ.Lawful) {c : Cursor} (hc : φ.Carries ctx ctx' c)
    (begun : Marker) (aligned : Bool) :
    Follows φ (Gives φ.state) (s.takeMathEnvironment ctx c begun aligned)
      ((φ.state s).takeMathEnvironment ctx' (φ.cursor c) (φ.marker begun) aligned) := by
  have hahead : (φ.cursor c).ahead = c.ahead.map φ.token ++ φ.tail := rfl
  have htext := @textUpTo?_append φ ctx.source ctx'.source c.ahead
    (fun t => t.kind == .envEnd && t.text == begun.text)
    (fun t => t.kind == .envEnd && t.text == begun.text) hc.spelling (fun _ => rfl)
  simp only [State.takeMathEnvironment, hahead, text_marker]
  cases hr : textUpTo? ctx.source (fun t => t.kind == .envEnd && t.text == begun.text) c.ahead with
  | some r =>
    obtain ⟨text, n⟩ := r
    rw [hr] at htext
    rw [htext (.inr (.inr rfl))]
    show Except.ok _ = Except.ok _
    simp only [advanceBy_cursor (.inr (length_le_of_textUpTo? hr)), lastStop_cursor hφ]
    rw [← addBlocks_state]
    rfl
  | none =>
    rw [hr] at htext
    refine ⟨fun hnone => ?_, fun hbarren => ?_⟩
    · rw [htext (.inl (tail_of_none hnone))]
      rfl
    · have hopen : Parse.textUpTo? ctx'.source
          (fun t => t.kind == .envEnd && t.text == begun.text) φ.tail = none :=
        hbarren.textUpTo? _ fun t ht => by rcases ht with ht | ht | ht <;> simp [ht]
      rw [htext (.inr (.inl hopen))]
      exact ⟨_, rfl⟩

/-- A list begins with what comes before its first item, or stays open at the end. -/
theorem beginList_state {c : Cursor} (begun : Marker) (ordered : Bool) :
    Onward φ (s.beginList c begun ordered)
      (.ok ((φ.state s).beginList (φ.cursor c) (φ.marker begun) ordered)) := by
  have hend : ∀ t : Token, t.isSpacing = true → t.kind ≠ .endOfFile :=
    fun t => Token.kind_ne_endOfFile_of_isSpacing
  by_cases h : φ.Sees c.skipSpacing
  · left
    have hskip : (φ.cursor c).skipSpacing = φ.cursor c.skipSpacing :=
      skipWhile_cursor (fun _ => rfl) hend h
    simp only [State.beginList, hskip, current_cursor h, start_token]
    rfl
  · obtain ⟨hending, hnil⟩ : φ.ending? ≠ none ∧ c.skipSpacing.ahead = [] := by
      simpa [Sees, not_or] using h
    refine .inr ⟨hnil, .inl (by simp [State.beginList, State.pushEnvironment]), hending,
      fun hbarren => ⟨_, rfl, .inl (by simp [State.beginList, State.pushEnvironment]), ?_⟩⟩
    exact barren_skipWhile (φ := φ) (fun _ => rfl) hend
      (fun t ht => by simp [Token.isSpacing, Token.isBlankText, ht]) hbarren hnil

theorem skipArguments_cursor (hφ : φ.Lawful) {c : Cursor} (hc : φ.Carries ctx ctx' c)
    (begun : Marker) :
    Follows φ (Gives φ.cursor) (State.skipArguments ctx c begun)
      (State.skipArguments ctx' (φ.cursor c) (φ.marker begun)) := by
  unfold State.skipArguments
  rw [skipOptionalArgument_cursor hφ hc.terminated, missingArgument_marker, text_marker]
  exact skipGroups_cursor hφ (hc.of_reaches (reaches_skipOptionalArgument c)) begun _ _

theorem beginTable_state (hφ : φ.Lawful) {c : Cursor} (hc : φ.Carries ctx ctx' c)
    (begun : Marker) :
    Follows φ (Onward φ) (s.beginTable ctx c begun)
      ((φ.state s).beginTable ctx' (φ.cursor c) (φ.marker begun)) := by
  unfold State.beginTable
  refine (skipArguments_cursor hφ hc begun).bind fun after ha => ?_
  exact beginRow_state (s := { s with cursor := after }) hφ
    (hc.of_reaches (State.reaches_of_skipArguments ha)) rfl rfl

theorem beginInPlace_state (hφ : φ.Lawful) {c : Cursor} (hc : φ.Carries ctx ctx' c)
    (begun : Marker) :
    Follows φ (Gives φ.state) (s.beginInPlace ctx c begun)
      ((φ.state s).beginInPlace ctx' (φ.cursor c) (φ.marker begun)) := by
  unfold State.beginInPlace
  exact (skipArguments_cursor hφ hc begun).bind fun after _ =>
    .pure (g := φ.state) (s.pushEnvironment after begun .inPlace)

/-- An environment begins alike. -/
theorem beginEnvironment_state (hφ : φ.Lawful) (hc : φ.Carries ctx ctx' s.cursor)
    (h : φ.Sees s.cursor) :
    Follows φ (Onward φ) (s.beginEnvironment ctx) ((φ.state s).beginEnvironment ctx') := by
  have hadvance := hc.of_reaches (Cursor.Reaches.advance s.cursor)
  simp only [State.beginEnvironment, cursor_state, marker_cursor h, advance_cursor h,
    depth_state, text_marker]
  refine (φ.checkDepth_marker s.depth s.cursor.marker).bind fun _ _ => ?_
  cases EnvironmentKind.ofName? s.cursor.marker.text with
  | none =>
    exact (beginInPlace_state (s := s.warnAt (.unknownEnvironment s.cursor.marker.text)
      s.cursor.marker.token) hφ hadvance s.cursor.marker).onward
  | some kind =>
    cases kind with
    | unorderedList => exact beginList_state s.cursor.marker false
    | orderedList => exact beginList_state s.cursor.marker true
    | table => exact beginTable_state hφ hadvance s.cursor.marker
    | tableFloat =>
      refine Follows.onward ?_
      show Except.ok _ = Except.ok _
      rw [skipOptionalArgument_cursor hφ hadvance.terminated]
      rfl
    | codeBlock => exact (takeCode_state hφ hadvance.terminated s.cursor.marker).onward
    | comment => exact (skipComment_state hφ hadvance.terminated s.cursor.marker).onward
    | quote => exact Follows.onward (.pure (g := φ.state) (s.pushEnvironment _ _ .quote))
    | mathBlock => exact (takeMathEnvironment_state hφ hadvance s.cursor.marker false).onward
    | alignedMath => exact (takeMathEnvironment_state hφ hadvance s.cursor.marker true).onward
    | transparent => exact (beginInPlace_state hφ hadvance s.cursor.marker).onward

theorem takeDisplayMath_state (hφ : φ.Lawful) (hc : φ.Carries ctx ctx' s.cursor)
    (hk : s.cursor.current.kind = .mathDisplay) :
    Follows φ (Gives φ.state) (s.takeDisplayMath ctx) ((φ.state s).takeDisplayMath ctx') := by
  have hsees : φ.Sees s.cursor := .of_kind hc.terminated (by rw [hk]; decide)
  simp only [State.takeDisplayMath, cursor_state, current_cursor hsees, start_token]
  refine (readMath_cursor hc (.inr hk)).bind fun r _ => ?_
  show Except.ok _ = Except.ok _
  simp only [lastStop_cursor hφ]
  refine congrArg Except.ok ?_
  split
  · rfl
  · rw [← addBlocks_state]
    rfl

/-! ## A step -/

/-- The cursor that a step reads at is on the list, and where it is at a comment, so is the next. -/
structure Ready (φ : Frame) (c : Cursor) : Prop where
  sees : φ.Sees c
  comment : c.current.kind = .comment → φ.Sees c.advance

theorem takeInline_state (hφ : φ.Lawful) (hc : φ.Carries ctx ctx' s.cursor) (h : φ.Ready s.cursor)
    (i : OpenInline) :
    Follows φ (Onward φ) (s.takeInline ctx i) ((φ.state s).takeInline ctx' (φ.content i)) := by
  have hends : (φ.surround i.surround).endsAt (φ.state s).inList (φ.cursor s.cursor).current
      = i.surround.endsAt s.inList s.cursor.current := by
    rw [current_cursor h.sees, endsAt_surround, inList_state]
  simp only [State.takeInline, surround_content, cursor_state, hends]
  split
  · exact closeInline_state hφ hc h.sees i
  · exact (takeToken_state hφ hc h.sees h.comment i).onward

theorem beginParagraph_state (hφ : φ.Lawful) (hc : φ.Carries ctx ctx' s.cursor)
    (h : φ.Ready s.cursor) :
    Follows φ (Onward φ) (s.beginParagraph ctx) ((φ.state s).beginParagraph ctx') := by
  simp only [State.beginParagraph, cursor_state, current_cursor h.sees, start_token]
  exact takeInline_state (s := { s with
    inline? := some { line := .paragraph s.cursor.current.start } }) hφ hc h
    { line := .paragraph s.cursor.current.start }

theorem takeOtherCommand_state (hφ : φ.Lawful) (hc : φ.Carries ctx ctx' s.cursor)
    (h : φ.Ready s.cursor) :
    Follows φ (Onward φ) (s.takeOtherCommand ctx) ((φ.state s).takeOtherCommand ctx') := by
  simp only [State.takeOtherCommand, cursor_state, current_cursor h.sees, text_token,
    droppedCount?_state]
  cases headingLevel? s.cursor.current.text with
  | some level => exact (beginHeading_state hφ hc.terminated h.sees level).onward
  | none =>
    cases s.droppedCount? s.cursor.current.text with
    | some count =>
      apply Follows.onward
      exact (skipCommand_cursor hφ hc h.sees count).bind fun after _ =>
        .pure (g := φ.state) { s with cursor := after }
    | none => exact beginParagraph_state hφ hc h

theorem takeBlockCommand_state (hφ : φ.Lawful) (hc : φ.Carries ctx ctx' s.cursor)
    (h : φ.Ready s.cursor) :
    Follows φ (Onward φ) (s.takeBlockCommand ctx) ((φ.state s).takeBlockCommand ctx') := by
  have hother := takeOtherCommand_state hφ hc h
  simp only [State.takeBlockCommand, environments_state, cursor_state, current_cursor h.sees,
    text_token]
  cases s.environments with
  | nil => exact hother
  | cons e outer =>
    obtain ⟨marker, role, blocks⟩ := e
    cases role with
    | list l =>
      simp only [List.map_cons, environment, role]
      split
      · exact (beginItem_state hφ hc.terminated h.sees ⟨marker, .list l, blocks⟩ outer l).onward
      · exact hother
    | inPlace | float | quote => exact hother

theorem beginBlock_state (hφ : φ.Lawful) (hc : φ.Carries ctx ctx' s.cursor)
    (h : φ.Ready s.cursor) :
    Follows φ (Onward φ) (s.beginBlock ctx) ((φ.state s).beginBlock ctx') := by
  simp only [State.beginBlock, cursor_state, current_cursor h.sees, kind_token,
    opensDisplay_token]
  split
  · exact beginEnvironment_state hφ hc h.sees
  · next hk =>
    split
    · exact (takeDisplayMath_state hφ hc hk).onward
    · exact beginParagraph_state hφ hc h
  · exact takeBlockCommand_state hφ hc h
  · exact beginParagraph_state hφ hc h

theorem endEnvironment_state (hφ : φ.Lawful) (h : φ.Sees s.cursor) :
    Follows φ (Gives φ.state) s.endEnvironment (φ.state s).endEnvironment := by
  simp only [State.endEnvironment, environments_state, cursor_state, marker_cursor h, text_marker]
  cases s.environments with
  | nil => exact .error _ ⟨_, s.cursor.marker⟩
  | cons e outer =>
    have htext : (φ.environment e).marker.text = e.marker.text := rfl
    simp only [List.map_cons, htext]
    split
    · rw [closeEnvironment_state hφ h]
      exact .pure _
    · exact .error _ ⟨_, s.cursor.marker⟩

theorem endDocument_state (φ : Frame) (s : State) :
    Follows φ (Gives id) s.endDocument (φ.state s).endDocument := by
  simp only [State.endDocument, environments_state]
  cases s.environments with
  | nil => exact .pure ()
  | cons e outer => exact .error _ ⟨_, e.marker⟩

theorem takeBlock_state (hφ : φ.Lawful) (hc : φ.Carries ctx ctx' s.cursor)
    (h : φ.Ready s.cursor.skipSpacing) :
    Follows φ (Onward? φ) (s.takeBlock ctx) ((φ.state s).takeBlock ctx') := by
  have hskip : (φ.cursor s.cursor).skipSpacing = φ.cursor s.cursor.skipSpacing :=
    skipWhile_cursor (fun _ => rfl) (fun t => Token.kind_ne_endOfFile_of_isSpacing) h.sees
  have hcarries := hc.of_reaches (Cursor.reaches_skipSpacing s.cursor)
  simp only [State.takeBlock, cursor_state, hskip, current_cursor h.sees, kind_token]
  split
  · exact (endDocument_state φ { s with cursor := s.cursor.skipSpacing }).map
      fun _ y hy => by rw [hy]; rfl
  · exact (endEnvironment_state (s := { s with cursor := s.cursor.skipSpacing }) hφ
      h.sees).onward.onward?
  · exact (beginBlock_state (s := { s with cursor := s.cursor.skipSpacing }) hφ hcarries
      h).onward?

/-- The cursor that the next step reads at. -/
def place (s : State) : Cursor := if s.inline?.isSome then s.cursor else s.cursor.skipSpacing

/-- A step that looks at tokens of the list only is followed through the frame. -/
theorem step_state (hφ : φ.Lawful) (hc : φ.Carries ctx ctx' s.cursor) (h : φ.Ready (place s)) :
    Follows φ (Onward? φ) (s.step ctx) ((φ.state s).step ctx') := by
  simp only [State.step, inline?_state]
  cases hi : s.inline? with
  | none =>
    have hready : φ.Ready s.cursor.skipSpacing := by simpa [place, hi] using h
    exact takeBlock_state hφ hc hready
  | some i =>
    have hready : φ.Ready s.cursor := by simpa [place, hi] using h
    exact (takeInline_state hφ hc hready i).onward?

end Frame

end LatexMarkdown.Parse
