import LatexMarkdown.Proofs.Embedding.State
/-!
  Inline content read through a frame.

  One lemma for every reader of inline content, up to `takeToken_state`.  A comment that ends the
  list is left out: it looks at the token behind it.
-/
namespace LatexMarkdown.Parse

namespace Frame

variable {φ : Frame} {ctx ctx' : Context} {s : State} {i : OpenInline}

/-! ## Braces and arguments -/

theorem openBrace_state (h : φ.Sees s.cursor) (i : OpenInline) (kept : Bool) :
    Follows φ (Gives φ.state) (s.openBrace i kept)
      ((φ.state s).openBrace (φ.content i) kept) := by
  unfold State.openBrace
  rw [cursor_state, marker_cursor h, depth_state]
  refine (φ.checkDepth_marker s.depth s.cursor.marker).bind fun _ _ => ?_
  show Except.ok _ = Except.ok _
  rw [advance_cursor h]
  cases kept with
  | false => rfl
  | true =>
    have hpush : (φ.content i).run.fragments.pushText (φ.offset s.cursor.marker.token.start)
        (φ.offset s.cursor.marker.token.stop) "\x7b"
        = (i.run.fragments.pushText s.cursor.marker.token.start s.cursor.marker.token.stop
          "\x7b").mapOffsets φ.offset :=
      Fragments.pushText_map _ _ _ _ _
    simp only [if_true, token_marker, start_token, stop_token, hpush]
    rfl

theorem openKeptBraces_state (hφ : φ.Lawful) (hc : s.cursor.Terminated) (i : OpenInline) :
    Follows φ (Gives φ.state) (s.openKeptBraces i) ((φ.state s).openKeptBraces (φ.content i)) := by
  have hkind : (φ.cursor s.cursor).current.kind = .groupOpen
      ↔ s.cursor.current.kind = .groupOpen :=
    kind_current hφ hc (by decide) (by decide) (by decide)
  simp only [State.openKeptBraces, cursor_state, hkind]
  split
  · next hk =>
    have hsees : φ.Sees s.cursor := .of_kind hc (by rw [hk]; decide)
    exact openBrace_state (s := { s with inline? := some i }) hsees i true
  · exact .pure (g := φ.state) { s with inline? := some i }

theorem openArgument_state (hφ : φ.Lawful) (hc : s.cursor.Terminated) (i : OpenInline)
    (owner : Marker) (flaw : Flaw) (purpose : Purpose) :
    Follows φ (Gives φ.state) (s.openArgument i owner flaw purpose)
      ((φ.state s).openArgument (φ.content i) (φ.marker owner) flaw (φ.purpose purpose)) := by
  unfold State.openArgument
  refine (startGroup_cursor hφ hc owner flaw).bind fun opened ho => ?_
  have hopened := (reaches_of_startGroup ho).terminated hc
  have hsees : φ.Sees opened := .of_kind hopened (by rw [kind_of_startGroup ho]; decide)
  rw [marker_cursor hsees, depth_state]
  refine (φ.checkDepth_marker s.depth opened.marker).bind fun _ _ => ?_
  show Except.ok _ = Except.ok _
  rw [advance_cursor hsees]
  rfl

/-- What a closed argument adds, with its offsets moved. -/
theorem closeArgument_offset (purpose : Purpose) (argument : Fragments) (stop : Nat)
    (outer : Fragments) :
    State.closeArgument (φ.purpose purpose) (argument.mapOffsets φ.offset) (φ.offset stop)
        (outer.mapOffsets φ.offset)
      = (State.closeArgument purpose argument stop outer).mapOffsets φ.offset := by
  have hempty : (argument.mapOffsets φ.offset).finish.isEmpty = argument.finish.isEmpty := by
    rw [Fragments.finish_map, List.isEmpty_map]
  have hall := Inline.mapAllOffsets_eq_map φ.offset
  cases purpose with
  | styled command style =>
    -- Space before, the content itself, space behind.
    have hbefore : ∀ b : Bool, (if b then (outer.mapOffsets φ.offset).pushText
          (φ.offset command.token.start) (φ.offset command.token.start) [0x20]
          else outer.mapOffsets φ.offset)
        = (if b then outer.pushText command.token.start command.token.start [0x20]
          else outer).mapOffsets φ.offset := by
      intro b
      cases b with
      | false => rfl
      | true => exact Fragments.pushText_map _ _ _ _ _
    simp only [State.closeArgument, Frame.purpose, hempty, Fragments.leadingSpace_map,
      Fragments.trailingSpace_map, token_marker, start_token, hbefore]
    generalize (if (argument.leadingSpace || argument.trailingSpace && argument.finish.isEmpty)
      = true then outer.pushText command.token.start command.token.start [0x20] else outer) = before
    split
    · rfl
    · have hbehind : ∀ f : Fragments, (if argument.trailingSpace = true then
            (f.mapOffsets φ.offset).pushText (φ.offset stop) (φ.offset stop) [0x20]
            else f.mapOffsets φ.offset)
          = (if argument.trailingSpace = true then f.pushText stop stop [0x20]
            else f).mapOffsets φ.offset := by
        intro f
        split
        · exact Fragments.pushText_map _ _ _ _ _
        · rfl
      rw [← hbehind]
      cases style with
      | plain => simp only [Fragments.finish_map, Fragments.pushAll_map]
      | _ =>
        simp only [Fragments.finish_map, ← Fragments.push_map, Inline.mapOffsets, hall,
          Inline.plainTextOf_map]
        rfl
  | linkText command url =>
    simp only [State.closeArgument, Frame.purpose, hempty, token_marker, start_token]
    rw [← Fragments.push_map]
    simp only [Inline.mapOffsets, hall, Fragments.finish_map]
    split <;> rfl
  | spanning =>
    simp only [State.closeArgument, Frame.purpose, Fragments.finish_map, Fragments.pushAll_map]

/-! ## Commands -/

theorem pushText_content (i : OpenInline) (t : Token) (text : Text) :
    (φ.content i).run.fragments.pushText (φ.token t).start (φ.token t).stop text
      = (i.run.fragments.pushText t.start t.stop text).mapOffsets φ.offset :=
  Fragments.pushText_map φ.offset _ _ _ _

theorem takeUnknownCommand_state (hφ : φ.Lawful) (hc : s.cursor.Terminated)
    (h : φ.Sees s.cursor) (i : OpenInline) :
    Follows φ (Gives φ.state) (s.takeUnknownCommand i)
      ((φ.state s).takeUnknownCommand (φ.content i)) := by
  simp only [State.takeUnknownCommand, cursor_state, current_cursor h, text_token,
    warnAt_state, pushText_content, withFragments_content]
  rw [advance_cursor (c := (s.warnAt _ _).cursor) h]
  exact openKeptBraces_state (s := { s.warnAt (.unknownCommand s.cursor.current.text)
    s.cursor.current with cursor := s.cursor.advance }) hφ hc.advance _

theorem dropCommand_state (hφ : φ.Lawful) (hc : φ.Carries ctx ctx' s.cursor)
    (h : φ.Sees s.cursor) (i : OpenInline) (count : Nat) :
    Follows φ (Gives φ.state) (s.dropCommand ctx i count)
      ((φ.state s).dropCommand ctx' (φ.content i) count) := by
  unfold State.dropCommand
  exact (skipCommand_cursor hφ hc h count).bind fun after _ => .pure (g := φ.state) _

theorem takeLink_state (hφ : φ.Lawful) (hc : φ.Carries ctx ctx' s.cursor) (h : φ.Sees s.cursor)
    (i : OpenInline) :
    Follows φ (Gives φ.state) (s.takeLink ctx i) ((φ.state s).takeLink ctx' (φ.content i)) := by
  have hadvance := hc.of_reaches (Cursor.Reaches.advance s.cursor)
  simp only [State.takeLink, cursor_state, marker_cursor h, advance_cursor h, text_marker]
  refine (readGroup_cursor hφ hadvance s.cursor.marker _).bind fun r hr => ?_
  have hterminated := (reaches_of_readGroup hr).terminated hadvance.terminated
  exact openArgument_state (s := { s with cursor := r.2 }) hφ hterminated i s.cursor.marker _
    (.linkText s.cursor.marker r.1.trim)

theorem takeUrl_state (hφ : φ.Lawful) (hc : φ.Carries ctx ctx' s.cursor) (h : φ.Sees s.cursor)
    (i : OpenInline) :
    Follows φ (Gives φ.state) (s.takeUrl ctx i) ((φ.state s).takeUrl ctx' (φ.content i)) := by
  have hadvance := hc.of_reaches (Cursor.Reaches.advance s.cursor)
  simp only [State.takeUrl, cursor_state, marker_cursor h, advance_cursor h,
    missingArgument_marker]
  refine (readGroup_cursor hφ hadvance s.cursor.marker _).bind fun r hr => ?_
  show Except.ok _ = Except.ok _
  have hpush := Fragments.push_map φ.offset i.run.fragments
    (.link (.span s.cursor.marker.token.start r.2.lastStop) r.1.trim
      [.text (.span s.cursor.marker.token.start r.2.lastStop) r.1.trim])
  simp only [lastStop_cursor hφ, token_marker, start_token]
  exact congrArg Except.ok ((congrArg ((φ.state s).gather (φ.content i) (φ.cursor r.2))
    hpush).trans (gather_state φ s i r.2 _))

theorem takeVerbatim_state (hφ : φ.Lawful) (hc : s.cursor.Terminated) (h : φ.Sees s.cursor)
    (i : OpenInline) :
    Follows φ (Gives φ.state) (s.takeVerbatim i) ((φ.state s).takeVerbatim (φ.content i)) := by
  have hkind : (φ.cursor s.cursor.advance).current.kind = .rawText
      ↔ s.cursor.advance.current.kind = .rawText :=
    kind_current hφ hc.advance (by decide) (by decide) (by decide)
  simp only [State.takeVerbatim, cursor_state, marker_cursor h, advance_cursor h, hkind,
    missingArgument_marker]
  split
  · next hk =>
    have hsees : φ.Sees s.cursor.advance := .of_kind hc.advance (by rw [hk]; decide)
    show Except.ok _ = Except.ok _
    have hpush := Fragments.push_map φ.offset i.run.fragments
      (.code (.span s.cursor.marker.token.start s.cursor.advance.current.stop)
        s.cursor.advance.current.text)
    simp only [current_cursor hsees, advance_cursor hsees, token_marker, start_token, stop_token,
      text_token]
    exact congrArg Except.ok ((congrArg
      ((φ.state s).gather (φ.content i) (φ.cursor s.cursor.advance.advance)) hpush).trans
      (gather_state φ s i _ _))
  · exact .error _ ⟨_, s.cursor.marker⟩

theorem takeForcedBreak_state (h : φ.Sees s.cursor) (i : OpenInline) :
    (φ.state s).takeForcedBreak (φ.content i) = φ.state (s.takeForcedBreak i) := by
  have hpush := Fragments.push_map φ.offset i.run.fragments
    (.hardBreak (.span s.cursor.current.start s.cursor.current.stop))
  simp only [State.takeForcedBreak, cursor_state, current_cursor h, advance_cursor h]
  exact (congrArg ((φ.state s).gather (φ.content i) (φ.cursor s.cursor.advance)) hpush).trans
    (gather_state φ s i _ _)

/-- A command in inline content is read alike. -/
theorem takeCommand_state (hφ : φ.Lawful) (hc : φ.Carries ctx ctx' s.cursor)
    (h : φ.Sees s.cursor) (i : OpenInline) :
    Follows φ (Gives φ.state) (s.takeCommand ctx i)
      ((φ.state s).takeCommand ctx' (φ.content i)) := by
  simp only [State.takeCommand, cursor_state, marker_cursor h, text_marker,
    droppedCount?_content, missingArgument_marker]
  split
  · exact .error _ ⟨_, s.cursor.marker⟩
  cases i.droppedCount? s.cursor.marker.text with
  | some count => exact dropCommand_state hφ hc h i count
  | none =>
    cases InlineStyle.ofCommand? s.cursor.marker.text with
    | some style =>
      simp only [advance_cursor h]
      exact openArgument_state (s := { s with cursor := s.cursor.advance }) hφ
        hc.terminated.advance i s.cursor.marker _ (.styled s.cursor.marker style)
    | none =>
      simp only
      split
      · rw [takeForcedBreak_state h]
        exact .pure _
      split
      · exact takeLink_state hφ hc h i
      split
      · exact takeUrl_state hφ hc h i
      split
      · exact takeVerbatim_state hφ hc.terminated h i
      · exact takeUnknownCommand_state hφ hc.terminated h i

/-! ## Tokens -/

theorem takeLiteral_state (hc : φ.Carries ctx ctx' s.cursor) (hne : s.cursor.ahead ≠ [])
    (i : OpenInline) :
    (φ.state s).takeLiteral ctx' (φ.content i) = φ.state (s.takeLiteral ctx i) := by
  have hmem : s.cursor.current ∈ s.cursor.ahead := by
    obtain ⟨t, rest, ha⟩ := List.exists_cons_of_ne_nil hne
    rw [Cursor.current_of_ahead ha, ha]
    exact List.mem_cons_self
  simp only [State.takeLiteral, cursor_state, current_cursor (φ := φ) (.inr hne),
    advance_cursor (φ := φ) (.inr hne), hc.spelling _ hmem, pushText_content]
  exact gather_state φ s i _ _

theorem takeLineBreak_state (hφ : φ.Lawful) (hc : s.cursor.Terminated) (h : φ.Sees s.cursor)
    (i : OpenInline) :
    (φ.state s).takeLineBreak (φ.content i) = φ.state (s.takeLineBreak i) := by
  have hkind : (φ.cursor s.cursor.advance).current.kind = .bracketOpen
      ↔ s.cursor.advance.current.kind = .bracketOpen :=
    kind_current hφ hc.advance (by decide) (by decide) (by decide)
  have hpush := Fragments.push_map φ.offset i.run.fragments
    (.hardBreak (.span s.cursor.current.start s.cursor.current.stop))
  have hgather := fun c => (congrArg ((φ.state s).gather (φ.content i) (φ.cursor c)) hpush).trans
    (gather_state φ s i c _)
  simp only [State.takeLineBreak, cursor_state, current_cursor h, advance_cursor h, hkind]
  split
  · rw [skipOptionalArgument_cursor hφ hc.advance]
    exact hgather _
  · exact hgather _

theorem takeMath_state (hφ : φ.Lawful) (hc : φ.Carries ctx ctx' s.cursor)
    (hk : s.cursor.current.kind = .mathInline ∨ s.cursor.current.kind = .mathDisplay)
    (i : OpenInline) :
    Follows φ (Gives φ.state) (s.takeMath ctx i) ((φ.state s).takeMath ctx' (φ.content i)) := by
  have hne : s.cursor.ahead ≠ [] :=
    Cursor.ahead_ne_nil hc.terminated (by rcases hk with hk | hk <;> simp [hk])
  simp only [State.takeMath, cursor_state, current_cursor (φ := φ) (.inr hne), text_token]
  split
  · rw [takeLiteral_state hc hne]
    exact .pure _
  · refine (readInlineMath_cursor hφ hc hk).bind fun r _ => ?_
    show Except.ok _ = Except.ok _
    have hpush : ∀ (ns : List Inline) (f : Fragments),
        (ns.map (Inline.mapOffsets φ.offset)).foldl Fragments.push (f.mapOffsets φ.offset)
          = (ns.foldl Fragments.push f).mapOffsets φ.offset := by
      intro ns
      induction ns with
      | nil => exact fun _ => rfl
      | cons n rest ih =>
        intro f
        rw [List.map_cons, List.foldl_cons, List.foldl_cons, Fragments.push_map, ih]
    exact congrArg Except.ok ((congrArg ((φ.state s).gather (φ.content i) (φ.cursor r.2))
      (hpush r.1 i.run.fragments)).trans (gather_state φ s i _ _))

theorem takeText_state (h : φ.Sees s.cursor) (i : OpenInline) :
    (φ.state s).takeText (φ.content i) = φ.state (s.takeText i) := by
  simp only [State.takeText, cursor_state, current_cursor h, malformed_token, text_token,
    pushText_content]
  split
  · rw [warnAt_state, cursor_state, advance_cursor (c := (s.warnAt _ _).cursor) h]
    exact gather_state φ _ i _ _
  · rw [cursor_state, advance_cursor h]
    exact gather_state φ s i _ _

theorem takeSpace_state (h : φ.Sees s.cursor) (i : OpenInline) :
    (φ.state s).takeSpace (φ.content i) = φ.state (s.takeSpace i) := by
  simp only [State.takeSpace, cursor_state, current_cursor h, advance_cursor h, pushText_content]
  exact gather_state φ s i _ _

/-- The token behind a comment is looked at, so there has to be one. -/
theorem takeComment_state (h : φ.Sees s.cursor) (hnext : φ.Sees s.cursor.advance)
    (i : OpenInline) : (φ.state s).takeComment (φ.content i) = φ.state (s.takeComment i) := by
  simp only [State.takeComment, cursor_state, current_cursor h, advance_cursor h,
    current_cursor hnext, inTable_content, text_token, pushText_content, kind_token,
    isBlankLine_token]
  split
  · exact gather_state φ s i _ _
  · split
    · have hpush := Fragments.push_map φ.offset
        (i.run.fragments.pushText s.cursor.current.start s.cursor.current.stop
          (0x25 :: s.cursor.current.text))
        (.hardBreak (.span s.cursor.advance.current.start s.cursor.advance.current.stop))
      rw [advance_cursor hnext]
      exact (congrArg ((φ.state s).gather (φ.content i) (φ.cursor s.cursor.advance.advance))
        hpush).trans (gather_state φ s i _ _)
    · exact gather_state φ s i _ _

theorem opener_surround (m : Marker) (r : Surround) :
    (φ.surround r).opener (φ.marker m) = φ.marker (r.opener m) := by
  cases r <;> rfl

/-- A token that does not end inline content is read alike. -/
theorem takeToken_state (hφ : φ.Lawful) (hc : φ.Carries ctx ctx' s.cursor)
    (h : φ.Sees s.cursor)
    (hcomment : s.cursor.current.kind = .comment → φ.Sees s.cursor.advance) (i : OpenInline) :
    Follows φ (Gives φ.state) (s.takeToken ctx i) ((φ.state s).takeToken ctx' (φ.content i)) := by
  have hne : s.cursor.current.kind ≠ .endOfFile → s.cursor.ahead ≠ [] :=
    Cursor.ahead_ne_nil hc.terminated
  simp only [State.takeToken, cursor_state, marker_cursor h, kind_marker, text_marker,
    surround_content, opener_surround]
  cases hk : s.cursor.marker.token.kind <;> simp only
  case endOfFile | envEnd | envBegin | groupClose => exact .error _ ⟨_, _⟩
  case text | rawText => rw [takeText_state h]; exact .pure _
  case newLine => rw [takeSpace_state h]; exact .pure _
  case comment => rw [takeComment_state h (hcomment hk)]; exact .pure _
  case lineBreak => rw [takeLineBreak_state hφ hc.terminated h]; exact .pure _
  case groupOpen => exact openBrace_state h i false
  case mathInline => exact takeMath_state hφ hc (.inl hk) i
  case mathDisplay => exact takeMath_state hφ hc (.inr hk) i
  case command => exact takeCommand_state hφ hc h i
  all_goals
    have hk' : s.cursor.current.kind ≠ .endOfFile := by
      intro heq
      exact absurd (hk.symm.trans heq) (by decide)
    rw [takeLiteral_state hc (hne hk')]
    exact .pure _

end Frame

end LatexMarkdown.Parse
