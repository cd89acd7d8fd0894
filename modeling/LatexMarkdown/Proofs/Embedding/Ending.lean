import LatexMarkdown.Proofs.Embedding.Edges
import LatexMarkdown.Proofs.Embedding.Runs
/-!
  Where the list ends and the tail begins.

  A run that succeeds has nothing open at the end of its list but a paragraph.  Through a frame with
  line breaks behind, up to a blank line, the paragraph goes on with a space or a forced break, and
  these are no part of it (`Frame.ends_of_outcome`).
-/
namespace LatexMarkdown.Parse

variable {ctx ctx' : Context} {s : State} {i : OpenInline}

/-- Blocks without their offsets. -/
def bare (blocks : List Block) : List (Block Unit) := blocks.map (Block.mapOffsets fun _ => ())

/-- The block that content makes when it is closed as a paragraph, if any. -/
def closed (f : Fragments) : List (Block Unit) :=
  if f.finish.isEmpty then []
  else [.paragraph (.span () ()) (f.finish.map (Inline.mapOffsets fun _ => ()))]

theorem closed_congr {f g : Fragments}
    (h : f.finish.map (Inline.mapOffsets fun _ => ())
      = g.finish.map (Inline.mapOffsets fun _ => ())) : closed f = closed g := by
  have hempty : f.finish.isEmpty = g.finish.isEmpty := by
    rw [← List.isEmpty_map (f := Inline.mapOffsets fun _ => ()), h, List.isEmpty_map]
  rw [closed, closed, h, hempty]

theorem bare_closeParagraph (he : s.environments = []) (start : Nat) (f : Fragments) :
    (s.closeParagraph start f).environments = [] ∧
      bare (s.closeParagraph start f).blocks = closed f ++ bare s.blocks ∧
      (s.closeParagraph start f).diagnostics = s.diagnostics := by
  simp only [State.closeParagraph, closed]
  split
  · exact ⟨he, rfl, rfl⟩
  · simp [State.addBlocks, he, bare, Block.mapOffsets, Inline.mapAllOffsets_eq_map,
      NodeInfo.mapOffsets, NodeInfo.span]

/-- Between blocks, spacing in front of the rest is passed. -/
theorem State.Leads.of_spacing (ctx : Context) {l rest : List Token} (hi : s.inline? = none)
    (ha : s.cursor.ahead = l ++ rest) (hl : ∀ t ∈ l, t.isSpacing = true) :
    ∃ c, s.cursor.Reaches c ∧ c.ahead = rest ∧ State.Leads ctx s { s with cursor := c } := by
  induction l generalizing s with
  | nil => exact ⟨s.cursor, .refl _, ha, .refl s⟩
  | cons t l ih =>
    have ht := hl t List.mem_cons_self
    have hadvance := Cursor.ahead_advance ha (Token.kind_ne_endOfFile_of_isSpacing ht)
    obtain ⟨c, hreach, hrest, hlead⟩ := ih (s := { s with cursor := s.cursor.advance }) hi hadvance
      fun u hu => hl u (List.mem_cons_of_mem t hu)
    exact ⟨c, (Cursor.Reaches.advance _).trans hreach, hrest,
      (State.Leads.of_isSpacing hi ha ht).trans hlead⟩

/-- What may stand between the list and the blank line behind it. -/
def IsGap (gap : List Token) : Prop :=
  gap = [] ∨ ∃ t, gap = [t] ∧ t.kind = .newLine ∧ t.isBlankLine = false

/-- Nothing follows, or a blank line. -/
def IsBreak (rest : List Token) : Prop :=
  rest = [] ∨ ∃ t more, rest = t :: more ∧ t.isBlankLine = true

/-- A run from the state comes to between the blocks of the document, before the rest, with these
blocks, up to offsets, and these diagnostics. -/
def Ends (ctx : Context) (s : State) (rest : List Token) (blocks : List (Block Unit))
    (diagnostics : List Diagnostic) : Prop :=
  ∃ t, State.Leads ctx s t ∧ s.cursor.Reaches t.cursor ∧ t.cursor.ahead = rest ∧
    t.inline? = none ∧ t.environments = [] ∧ bare t.blocks = blocks ∧ t.diagnostics = diagnostics

theorem Ends.of_leads {t : State} {rest : List Token} {blocks : List (Block Unit)}
    {diagnostics : List Diagnostic} (h : Ends ctx t rest blocks diagnostics)
    (hlead : State.Leads ctx s t) (hreach : s.cursor.Reaches t.cursor) :
    Ends ctx s rest blocks diagnostics := by
  obtain ⟨u, hu, hreach', hrest⟩ := h
  exact ⟨u, hlead.trans hu, hreach.trans hreach', hrest⟩

/-- At a blank line or the end, a paragraph of the document is closed. -/
theorem Ends.of_break {rest : List Token} (hc : s.cursor.Terminated) (hrest : IsBreak rest)
    (ha : s.cursor.ahead = rest) (hi : s.inline? = some i) (hp : i.surround = .paragraph)
    (he : s.environments = []) :
    Ends ctx s rest (closed i.run.fragments ++ bare s.blocks) s.diagnostics := by
  obtain ⟨start, hl, hbraces, harguments⟩ := paragraph_of_surround hp
  have hends : Surround.endsAt s.inList s.cursor.current .paragraph = true := by
    rcases hrest with rfl | ⟨t, more, rfl, ht⟩
    · rw [Cursor.current_of_ahead_nil ha]
      simp [Surround.endsAt, show _ = TokenKind.endOfFile from hc]
    · rw [Cursor.current_of_ahead ha]
      simp [Surround.endsAt, Token.kind_of_isBlankLine ht, ht]
  obtain ⟨henv, hblocks, hdiagnostics⟩ := bare_closeParagraph he start i.run.fragments
  refine ⟨_, .of_closeParagraph hi hl hbraces harguments hends, ?_, ?_,
    State.inline?_closeParagraph _ _ _, henv, hblocks, hdiagnostics⟩
  · rw [State.cursor_closeParagraph]
    exact .refl _
  · rw [State.cursor_closeParagraph, ha]

/-- A paragraph of the document goes on with a space where a line break comes before that. -/
theorem Ends.of_gap {gap rest : List Token} (hc : s.cursor.Terminated) (hgap : IsGap gap)
    (hrest : IsBreak rest) (ha : s.cursor.ahead = gap ++ rest) (hi : s.inline? = some i)
    (hp : i.surround = .paragraph) (he : s.environments = []) :
    Ends ctx s rest (closed i.run.fragments ++ bare s.blocks) s.diagnostics := by
  rcases hgap with rfl | ⟨t, rfl, hk, hblank⟩
  · exact .of_break hc hrest ha hi hp he
  · have hcurrent := Cursor.current_of_ahead ha
    have hends : i.surround.endsAt s.inList s.cursor.current = false := by
      rw [hp, hcurrent]
      simp [Surround.endsAt, hk, hblank]
    -- The space is no part of the paragraph.
    have hspace := closed_congr (Fragments.finish_pushText_space i.run.fragments
      s.cursor.current.start s.cursor.current.stop)
    generalize hf : i.run.fragments.pushText s.cursor.current.start s.cursor.current.stop [0x20]
      = f at hspace
    have hlead : State.Leads ctx s (s.gather i s.cursor.advance f) := by
      rw [← hf]
      exact .of_newLine hi (by rw [hcurrent, hk]) hends
    have hadvance := Cursor.ahead_advance ha (by rw [hk]; decide)
    have hbreak : Ends ctx (s.gather i s.cursor.advance f) rest
        (closed f ++ bare s.blocks) s.diagnostics :=
      .of_break (i := i.withFragments f) hc.advance hrest hadvance rfl
        (by rwa [surround_withFragments]) he
    rw [← hspace]
    exact hbreak.of_leads hlead (.advance _)

/-- A comment that ends the list ends its line with a forced break where a line break follows. -/
theorem Ends.of_comment {gap rest : List Token} {t : Token} (hc : s.cursor.Terminated)
    (ht : t.kind = .comment) (hgap : IsGap gap) (hrest : IsBreak rest)
    (ha : s.cursor.ahead = t :: (gap ++ rest)) (hi : s.inline? = some i)
    (hp : i.surround = .paragraph) (he : s.environments = []) :
    Ends ctx s rest
      (closed (i.run.fragments.pushText t.start t.stop (0x25 :: t.text)) ++ bare s.blocks)
      s.diagnostics := by
  have hcurrent := Cursor.current_of_ahead ha
  have hends : i.surround.endsAt s.inList s.cursor.current = false := by
    rw [hp, hcurrent]
    simp [Surround.endsAt, ht]
  have htake : s.takeToken ctx i = .ok (s.takeComment i) := by
    simp only [State.takeToken, Cursor.marker, hcurrent, ht]
  have htable : i.inTable = false := by
    obtain ⟨start, hl, _⟩ := paragraph_of_surround hp
    rw [OpenInline.inTable, hl]
  have hadvance := Cursor.ahead_advance ha (by rw [ht]; decide)
  have hlead : State.Leads ctx s (s.takeComment i) := .of_takeToken hi hends htake
  have hreach := (Cursor.Reaches.advance s.cursor).trans (State.reaches_takeComment s i)
  refine Ends.of_leads ?_ hlead hreach
  generalize hf : i.run.fragments.pushText t.start t.stop (0x25 :: t.text) = f
  have hcomment : s.takeComment i
      = if s.cursor.advance.current.kind = .newLine ∧ !s.cursor.advance.current.isBlankLine then
          s.gather i s.cursor.advance.advance (f.push (.hardBreak
            (.span s.cursor.advance.current.start s.cursor.advance.current.stop)))
        else s.gather i s.cursor.advance f := by
    simp only [State.takeComment, htable, hcurrent, hf]
    rfl
  have hbreak : ∀ (c : Cursor) (g : Fragments), c.Terminated → c.ahead = rest →
      closed g = closed f →
      Ends ctx (s.gather i c g) rest (closed f ++ bare s.blocks) s.diagnostics := by
    intro c g hterminated hahead hg
    have hends : Ends ctx (s.gather i c g) rest (closed g ++ bare s.blocks) s.diagnostics :=
      .of_break (i := i.withFragments g) hterminated hrest hahead rfl
        (by rwa [surround_withFragments]) he
    rw [← hg]
    exact hends
  rw [hcomment]
  rcases hgap with rfl | ⟨u, rfl, hk, hblank⟩
  · rw [List.nil_append] at hadvance
    have hnext : ¬ (s.cursor.advance.current.kind = .newLine
        ∧ (!s.cursor.advance.current.isBlankLine) = true) := by
      rcases hrest with rfl | ⟨u, more, rfl, hu⟩
      · rw [Cursor.current_of_ahead_nil hadvance]
        simp [show s.cursor.final.kind = .endOfFile from hc]
      · rw [Cursor.current_of_ahead hadvance, hu]
        simp
    rw [if_neg hnext]
    exact hbreak _ f hc.advance hadvance rfl
  · have hnext : s.cursor.advance.current.kind = .newLine
        ∧ (!s.cursor.advance.current.isBlankLine) = true := by
      rw [Cursor.current_of_ahead hadvance, hk, hblank]
      exact ⟨rfl, rfl⟩
    rw [if_pos hnext]
    exact hbreak _ _ hc.advance.advance (Cursor.ahead_advance hadvance (by rw [hk]; decide))
      (closed_congr (by rw [Fragments.finish_push_hardBreak]))

/-- What a run ends in that ends at the end of the list. -/
theorem Ends.outcome_eq {blocks : List (Block Unit)} {diagnostics : List Diagnostic}
    (hends : Ends ctx s [] blocks diagnostics) (h : s.cursor.Terminated) :
    ∃ bs, s.outcome ctx h = .ok (bs, diagnostics) ∧ bare bs = blocks := by
  obtain ⟨t, hlead, _, ha, hi, he, hblocks, rfl⟩ := hends
  obtain ⟨h', heq⟩ := hlead h
  have hk : t.cursor.current.kind = .endOfFile := by
    rw [Cursor.current_of_ahead_nil ha]
    exact h'
  exact ⟨t.blocks, heq.trans (State.outcome_of_endOfFile hi he hk h'), hblocks⟩

/-! ## What may be left of a list -/

/-- What is left before a tail when a step has to look at the tail: between blocks space and a
comment, in inline content a comment. -/
inductive Leftover (s : State) : List Token → Prop
  | space (hi : s.inline? = none) {l : List Token} (h : ∀ t ∈ l, t.isSpacing = true) : Leftover s l
  | spaceComment (hi : s.inline? = none) {l : List Token} (h : ∀ t ∈ l, t.isSpacing = true)
      {t : Token} (ht : t.kind = .comment) : Leftover s (l ++ [t])
  | nothing {i : OpenInline} (hi : s.inline? = some i) : Leftover s []
  | comment {i : OpenInline} (hi : s.inline? = some i) {t : Token} (ht : t.kind = .comment) :
      Leftover s [t]

theorem Leftover.of_place
    (h : (Frame.place s).ahead = [] ∨ ∃ t, (Frame.place s).ahead = [t] ∧ t.kind = .comment) :
    Leftover s s.cursor.ahead := by
  cases hi : s.inline? with
  | some i =>
    have hplace : Frame.place s = s.cursor := by simp [Frame.place, hi]
    rw [hplace] at h
    rcases h with hnil | ⟨t, ha, ht⟩
    · rw [hnil]
      exact .nothing hi
    · rw [ha]
      exact .comment hi ht
  | none =>
    have hplace : (Frame.place s).ahead = s.cursor.ahead.dropWhile Token.isSpacing := by
      simp only [Frame.place, hi]
      exact Cursor.ahead_skipWhile (fun t => Token.kind_ne_endOfFile_of_isSpacing) s.cursor
    rw [hplace] at h
    rcases h with hnil | ⟨t, ha, ht⟩
    · exact .space hi (List.dropWhile_eq_nil_iff.mp hnil)
    · rw [← List.takeWhile_append_dropWhile (p := Token.isSpacing) (l := s.cursor.ahead), ha]
      exact .spaceComment hi (fun t ht => List.mem_takeWhile_imp ht) ht

/-- A comment begins a paragraph. -/
theorem State.Leads.of_comment (hi : s.inline? = none) (hk : s.cursor.current.kind = .comment) :
    State.Leads ctx s (s.inLine (.paragraph s.cursor.current.start) s.cursor {}) := by
  apply State.Leads.of_paragraph_start hi
  · simp [Token.isSpacing, Token.isBlankText, hk]
  · simp [Surround.endsAt, hk]
  · simp only [State.beginBlock, hk]

/-- A comment in inline content takes nothing along but a line break. -/
theorem State.Leads.takeComment (ctx : Context) (hi : s.inline? = some i) (hk : s.cursor.current.kind = .comment) :
    ∃ c f, State.Leads ctx s (s.gather i c f) ∧ (c = s.cursor.advance ∨
      c = s.cursor.advance.advance ∧ s.cursor.advance.current.kind = .newLine) := by
  have hends : i.surround.endsAt s.inList s.cursor.current = false := by
    cases i.surround <;> simp [Surround.endsAt, hk]
  have htake : s.takeToken ctx i = .ok (s.takeComment i) := by
    simp only [State.takeToken, Cursor.marker, hk]
  have hlead : State.Leads ctx s (s.takeComment i) := .of_takeToken hi hends htake
  simp only [State.takeComment] at hlead
  split at hlead
  · exact ⟨_, _, hlead, .inl rfl⟩
  · split at hlead
    · next hnext => exact ⟨_, _, hlead, .inr ⟨rfl, hnext.1⟩⟩
    · exact ⟨_, _, hlead, .inl rfl⟩

/-- What is open stays open when content is gathered. -/
theorem Stuck.gather (h : Stuck s) (hi : s.inline? = some i) (c : Cursor) (f : Fragments) :
    Stuck (s.gather i c f) := by
  rcases h with henv | ⟨j, hj, hne⟩
  · exact .inl henv
  · rw [hi] at hj
    cases hj
    exact .inr ⟨i.withFragments f, rfl, by rwa [surround_withFragments]⟩

/-- Before tokens that close nothing, a run fails behind a comment too. -/
theorem fails_of_comment {rest : List Token} {t : Token} (ha : s.cursor.ahead = t :: rest)
    (ht : t.kind = .comment) (hi : s.inline? = some i) (hb : Barren rest)
    (hd : Stuck s ∨ ∃ u ∈ rest, u.kind = .envBegin) (h : s.cursor.Terminated) :
    ∃ e, s.outcome ctx h = .error e := by
  have hadvance := Cursor.ahead_advance ha (by rw [ht]; decide)
  obtain ⟨c, f, hlead, hc⟩ := State.Leads.takeComment ctx hi
    (by rw [Cursor.current_of_ahead ha, ht])
  obtain ⟨h', heq⟩ := hlead h
  rw [heq]
  apply Doomed.outcome
  rcases hc with rfl | ⟨rfl, hk⟩
  · exact ⟨hadvance ▸ hb, hd.imp (fun hs => hs.gather hi _ f) fun hex => hadvance ▸ hex⟩
  · cases rest with
    | nil =>
      -- There is no line break at the end.
      have hfinal : s.cursor.final.kind = .endOfFile := h
      rw [Cursor.current_of_ahead_nil hadvance, Cursor.final_advance, hfinal] at hk
      cases hk
    | cons u rest =>
      rw [Cursor.current_of_ahead hadvance] at hk
      have hahead := Cursor.ahead_advance hadvance (by rw [hk]; decide)
      refine ⟨?_, hd.imp (fun hs => hs.gather hi _ f) ?_⟩
      · show Barren s.cursor.advance.advance.ahead
        rw [hahead]
        cases hb with
        | newLine _ hrest => exact hrest
        | raw hbegin _ _ => rw [hk] at hbegin; cases hbegin
      · rintro ⟨v, hv, hbegin⟩
        rcases List.mem_cons.mp hv with rfl | hv
        · rw [hk] at hbegin
          cases hbegin
        · exact ⟨v, by simpa [State.gather, hahead] using hv, hbegin⟩

/-- Before tokens that close nothing, with no more than a leftover before them, a run fails. -/
theorem fails_of_leftover (ctx : Context) {l rest : List Token} (ha : s.cursor.ahead = l ++ rest)
    (hl : Leftover s l) (hb : Barren rest) (hd : Stuck s ∨ ∃ t ∈ rest, t.kind = .envBegin)
    (h : s.cursor.Terminated) : ∃ e, s.outcome ctx h = .error e := by
  cases hl with
  | space hi hspace =>
    obtain ⟨c, _, hc, hlead⟩ := State.Leads.of_spacing ctx hi ha hspace
    obtain ⟨h', heq⟩ := hlead h
    rw [heq]
    have hdoomed : Doomed { s with cursor := c } := ⟨hc ▸ hb, hd.imp id fun hex => hc ▸ hex⟩
    exact hdoomed.outcome h'
  | spaceComment hi hspace ht =>
    rw [List.append_assoc, List.singleton_append] at ha
    obtain ⟨c, _, hc, hlead⟩ := State.Leads.of_spacing ctx hi ha hspace
    have hbegin : State.Leads ctx { s with cursor := c } _ :=
      .of_comment hi (by rw [Cursor.current_of_ahead hc, ht])
    obtain ⟨h', heq⟩ := (hlead.trans hbegin) h
    rw [heq]
    refine fails_of_comment hc ht rfl hb ?_ h'
    -- Nothing but environments was open between blocks.
    refine hd.imp ?_ id
    rintro (henv | ⟨i, hi', _⟩)
    · exact .inl henv
    · rw [hi] at hi'
      cases hi'
  | nothing hi =>
    have hdoomed : Doomed s := by
      rw [List.nil_append] at ha
      exact ⟨ha ▸ hb, hd.imp id fun hex => ha ▸ hex⟩
    exact hdoomed.outcome h
  | comment hi ht => exact fails_of_comment ha ht hi hb hd h

/-- In a run that succeeds nothing is stuck at the end of the list. -/
theorem not_stuck_of_outcome (hl : Leftover s s.cursor.ahead) (h : s.cursor.Terminated)
    {r : List Block × List Diagnostic} (hok : s.outcome ctx h = .ok r) : ¬ Stuck s := by
  intro hstuck
  obtain ⟨e, he⟩ := fails_of_leftover ctx (List.append_nil _).symm hl .nil (.inl hstuck) h
  rw [hok] at he
  cases he

theorem environments_of_not_stuck (h : ¬ Stuck s) : s.environments = [] :=
  by_contra fun he => h (.inl he)

theorem surround_of_not_stuck (h : ¬ Stuck s) (hi : s.inline? = some i) :
    i.surround = .paragraph :=
  by_contra fun hp => h (.inr ⟨i, hi, hp⟩)

namespace Frame

variable {φ : Frame}

theorem bare_state (s : State) : bare (φ.state s).blocks = bare s.blocks ++ bare φ.blocks := by
  simp [bare, state, Function.comp_def]

theorem closed_mapOffsets (f : Fragments) : closed (f.mapOffsets φ.offset) = closed f := by
  simp [closed, Fragments.finish_map, Function.comp_def]

/-- The list and what is behind it, where the list is known. -/
theorem ahead_cursor {c : Cursor} {l : List Token} (ha : c.ahead = l) :
    (φ.cursor c).ahead = l.map φ.token ++ φ.tail := by
  rw [cursor, ha]

/-- Without the frame and through it, a run comes to between the blocks of the document with the same
blocks, up to offsets, and the same diagnostics. -/
def EndsAlike (ctx ctx' : Context) (φ : Frame) (s : State) (rest : List Token) : Prop :=
  ∃ blocks diagnostics, Ends ctx s [] blocks diagnostics ∧
    Ends ctx' (φ.state s) rest (blocks ++ bare φ.blocks)
      (diagnostics.map φ.diagnostic ++ φ.diagnostics)

section

variable {gap rest : List Token}

/-- Between blocks, with nothing but space left of the list. -/
theorem EndsAlike.of_space (htail : φ.tail = gap ++ rest) (hgap : IsGap gap)
    (hi : s.inline? = none) (hspace : ∀ t ∈ s.cursor.ahead, t.isSpacing = true)
    (hstuck : ¬ Stuck s) : EndsAlike ctx ctx' φ s rest := by
  have henv := environments_of_not_stuck hstuck
  obtain ⟨c, hreach, hc, hlead⟩ := State.Leads.of_spacing ctx hi
    (List.append_nil s.cursor.ahead).symm hspace
  refine ⟨_, _, ⟨_, hlead, hreach, hc, hi, henv, rfl, rfl⟩, ?_⟩
  -- Through the frame a line break may be left besides.
  have hahead : (φ.state s).cursor.ahead = (s.cursor.ahead.map φ.token ++ gap) ++ rest := by
    rw [List.append_assoc, ← htail]
    exact ahead_cursor rfl
  have hspace' : ∀ t ∈ s.cursor.ahead.map φ.token ++ gap, t.isSpacing = true := by
    intro t ht
    rcases List.mem_append.mp ht with ht | ht
    · obtain ⟨u, hu, rfl⟩ := List.mem_map.mp ht
      exact hspace u hu
    · rcases hgap with rfl | ⟨u, rfl, hk, _⟩
      · cases ht
      · rw [List.mem_singleton.mp ht]
        simp [Token.isSpacing, hk]
  have hi' : (φ.state s).inline? = none := by rw [inline?_state, hi]; rfl
  have henv' : (φ.state s).environments = [] := by rw [environments_state, henv]; rfl
  obtain ⟨c', hreach', hc', hlead'⟩ := State.Leads.of_spacing ctx' hi' hahead hspace'
  exact ⟨_, hlead', hreach', hc', hi', henv', bare_state s, rfl⟩

/-- In inline content, with nothing left of the list. -/
theorem EndsAlike.of_nothing (hφ : φ.Lawful) (htail : φ.tail = gap ++ rest) (hgap : IsGap gap)
    (hrest : IsBreak rest) (hi : s.inline? = some i) (hnil : s.cursor.ahead = [])
    (h : s.cursor.Terminated) (hstuck : ¬ Stuck s) : EndsAlike ctx ctx' φ s rest := by
  have hp := surround_of_not_stuck hstuck hi
  have henv := environments_of_not_stuck hstuck
  refine ⟨_, _, .of_break h (.inl rfl) hnil hi hp henv, ?_⟩
  have hahead : (φ.state s).cursor.ahead = gap ++ rest := by
    rw [← htail, cursor_state, ahead_cursor hnil]
    rfl
  rw [List.append_assoc, ← bare_state, ← closed_mapOffsets (φ := φ)]
  exact .of_gap (i := φ.content i) (hφ.terminated h) hgap hrest hahead (by rw [inline?_state, hi]; rfl)
    (by rw [surround_content, hp]; rfl) (by rw [environments_state, henv]; rfl)

/-- In inline content, with a comment left of the list. -/
theorem EndsAlike.of_comment (hφ : φ.Lawful) (htail : φ.tail = gap ++ rest) (hgap : IsGap gap)
    (hrest : IsBreak rest) (hi : s.inline? = some i) {t : Token} (ha : s.cursor.ahead = [t])
    (ht : t.kind = .comment) (h : s.cursor.Terminated) (hstuck : ¬ Stuck s) :
    EndsAlike ctx ctx' φ s rest := by
  have hp := surround_of_not_stuck hstuck hi
  have henv := environments_of_not_stuck hstuck
  refine ⟨_, _, .of_comment h ht (.inl rfl) (.inl rfl) ha hi hp henv, ?_⟩
  have hahead : (φ.state s).cursor.ahead = φ.token t :: (gap ++ rest) := by
    rw [← htail, cursor_state, ahead_cursor ha]
    rfl
  rw [List.append_assoc, ← bare_state, ← closed_mapOffsets (φ := φ), ← Fragments.pushText_map]
  exact .of_comment (i := φ.content i) (t := φ.token t) (hφ.terminated h) ht hgap hrest hahead
    (by rw [inline?_state, hi]; rfl) (by rw [surround_content, hp]; rfl)
    (by rw [environments_state, henv]; rfl)

theorem EndsAlike.of_leads {t : State} (hends : EndsAlike ctx ctx' φ t rest)
    (hlead : State.Leads ctx s t) (hreach : s.cursor.Reaches t.cursor)
    (hlead' : State.Leads ctx' (φ.state s) (φ.state t))
    (hreach' : (φ.cursor s.cursor).Reaches (φ.cursor t.cursor)) :
    EndsAlike ctx ctx' φ s rest := by
  obtain ⟨blocks, diagnostics, h, h'⟩ := hends
  exact ⟨blocks, diagnostics, h.of_leads hlead hreach, h'.of_leads hlead' hreach'⟩

/-- Between blocks, with a comment left of the list besides space. -/
theorem EndsAlike.of_spaceComment (hφ : φ.Lawful) (htail : φ.tail = gap ++ rest)
    (hgap : IsGap gap) (hrest : IsBreak rest) (hi : s.inline? = none) {l : List Token} {t : Token}
    (ha : s.cursor.ahead = l ++ [t]) (hspace : ∀ t ∈ l, t.isSpacing = true)
    (ht : t.kind = .comment) (h : s.cursor.Terminated) (hstuck : ¬ Stuck s) :
    EndsAlike ctx ctx' φ s rest := by
  have hskipped : s.cursor.skipSpacing.ahead = [t] := by
    have hnot : t.isSpacing = false := by simp [Token.isSpacing, Token.isBlankText, ht]
    refine (Cursor.ahead_skipWhile (fun t => Token.kind_ne_endOfFile_of_isSpacing) _).trans ?_
    rw [ha, List.dropWhile_append_of_pos hspace, List.dropWhile_cons, hnot]
    rfl
  have hsees : φ.Sees s.cursor.skipSpacing := .inr (by rw [hskipped]; simp)
  have hskip : (φ.cursor s.cursor).skipSpacing = φ.cursor s.cursor.skipSpacing :=
    skipWhile_cursor (fun _ => rfl) (fun t => Token.kind_ne_endOfFile_of_isSpacing) hsees
  have hk : s.cursor.skipSpacing.current.kind = .comment := by
    rw [Cursor.current_of_ahead hskipped, ht]
  have hlead : State.Leads ctx s (s.inLine (.paragraph s.cursor.skipSpacing.current.start)
      s.cursor.skipSpacing {}) :=
    (State.Leads.skipSpacing hi).trans
      (.of_comment (s := { s with cursor := s.cursor.skipSpacing }) hi hk)
  have hi' : (φ.state s).inline? = none := by rw [inline?_state, hi]; rfl
  have hlead' : State.Leads ctx' (φ.state s) (φ.state
      (s.inLine (.paragraph s.cursor.skipSpacing.current.start) s.cursor.skipSpacing {})) := by
    have hskipped' : State.Leads ctx' (φ.state s) _ := .skipSpacing hi'
    rw [cursor_state, hskip] at hskipped'
    have hbegin : State.Leads ctx' { φ.state s with cursor := φ.cursor s.cursor.skipSpacing } _ :=
      .of_comment hi' (by rw [current_cursor hsees, kind_token, hk])
    refine (hskipped'.trans hbegin).trans ?_
    simp only [current_cursor hsees]
    exact .refl _
  have hends : EndsAlike ctx ctx' φ (s.inLine (.paragraph s.cursor.skipSpacing.current.start)
      s.cursor.skipSpacing {}) rest := by
    refine .of_comment hφ htail hgap hrest rfl hskipped ht
      ((Cursor.reaches_skipSpacing _).terminated h) ?_
    -- The paragraph alone leaves nothing stuck.
    rintro (henv | ⟨j, hj, hne⟩)
    · exact hstuck (.inl henv)
    · cases hj
      exact hne rfl
  refine hends.of_leads hlead (Cursor.reaches_skipSpacing _) hlead' ?_
  show (φ.cursor s.cursor).Reaches (φ.cursor s.cursor.skipSpacing)
  rw [← hskip]
  exact Cursor.reaches_skipSpacing _

/-- Where nothing is stuck, a run ends alike without the frame and through it, before the blank line
behind the list. -/
theorem EndsAlike.of_leftover (hφ : φ.Lawful) (htail : φ.tail = gap ++ rest) (hgap : IsGap gap)
    (hrest : IsBreak rest) (h : s.cursor.Terminated) (hl : Leftover s s.cursor.ahead)
    (hstuck : ¬ Stuck s) : EndsAlike ctx ctx' φ s rest := by
  generalize ha : s.cursor.ahead = l at hl
  cases hl with
  | space hi hspace => exact .of_space htail hgap hi (ha ▸ hspace) hstuck
  | spaceComment hi hspace ht =>
    exact .of_spaceComment hφ htail hgap hrest hi ha hspace ht h hstuck
  | nothing hi => exact .of_nothing hφ htail hgap hrest hi ha h hstuck
  | comment hi ht => exact .of_comment hφ htail hgap hrest hi ha ht h hstuck

end

/-- No more than a leftover is before the cursor when a step has to look at the tail. -/
theorem leftover_of_not_ready (h : ¬ φ.Ready (place s)) : Leftover s s.cursor.ahead := by
  apply Leftover.of_place
  by_contra hnot
  obtain ⟨hne, hcomment⟩ := not_or.mp hnot
  refine h ⟨.inr hne, fun hk => .inr fun hnil => hcomment ?_⟩
  obtain ⟨t, more, ha⟩ := List.exists_cons_of_ne_nil hne
  rw [Cursor.current_of_ahead ha] at hk
  rw [Cursor.ahead_advance ha (by rw [hk]; decide)] at hnil
  exact ⟨t, by rw [ha, hnil], hk⟩

theorem leftover_state {l : List Token} (h : Leftover s l) : Leftover (φ.state s) (l.map φ.token) := by
  have hspace : ∀ l : List Token, (∀ t ∈ l, t.isSpacing = true) →
      ∀ t ∈ l.map φ.token, t.isSpacing = true := by
    intro l hl t ht
    obtain ⟨u, hu, rfl⟩ := List.mem_map.mp ht
    exact hl u hu
  cases h with
  | space hi h => exact .space (by rw [inline?_state, hi]; rfl) (hspace _ h)
  | spaceComment hi h ht =>
    rw [List.map_append]
    exact .spaceComment (by rw [inline?_state, hi]; rfl) (hspace _ h) ht
  | nothing hi => exact .nothing (by rw [inline?_state, hi]; rfl)
  | comment hi ht => exact .comment (by rw [inline?_state, hi]; rfl) ht

theorem stuck_state (h : Stuck s) : Stuck (φ.state s) := by
  rcases h with henv | ⟨i, hi, hne⟩
  · exact .inl (by simpa using henv)
  · refine .inr ⟨φ.content i, by rw [inline?_state, hi]; rfl, ?_⟩
    rw [surround_content]
    cases hr : i.surround with
    | paragraph => exact absurd hr hne
    | _ => simp [surround]

section

variable {gap rest : List Token} (hφ : φ.Lawful) (hending : φ.ending? ≠ none)
  (hc : φ.Carries ctx ctx' s.cursor) (h : s.cursor.Terminated)
  (h' : (φ.state s).cursor.Terminated)

include hφ hending hc h

/-- Where a tail closes nothing and a raw environment begins in it, the run through the frame
fails. -/
theorem fails_of_raw (hbarren : Barren φ.tail) (hraw : ∃ t ∈ φ.tail, t.kind = .envBegin) :
    ∃ e, (φ.state s).outcome ctx' h' = .error e := by
  rcases run_cases hφ hending hc h h' with
    ⟨_, hframed⟩ | ⟨t, _, hlead', _, _, hready⟩
  · exact hframed hbarren
  · obtain ⟨hterminated, heq⟩ := hlead' h'
    rw [heq]
    exact fails_of_leftover ctx' (ahead_cursor rfl) (leftover_state (leftover_of_not_ready hready))
      hbarren (.inr hraw) hterminated

/-- Where the tail closes nothing, a run that succeeds through the frame succeeds without. -/
theorem outcome_of_framed (htail : φ.tail = gap ++ rest) (hgap : IsGap gap)
    (hrest : IsBreak rest) (hbarren : Barren φ.tail) {r : List Block × List Diagnostic}
    (hok : (φ.state s).outcome ctx' h' = .ok r) : ∃ r', s.outcome ctx h = .ok r' := by
  rcases run_cases hφ hending hc h h' with
    ⟨_, hframed⟩ | ⟨t, hlead, hlead', _, _, hready⟩
  · obtain ⟨e, he⟩ := hframed hbarren
    rw [hok] at he
    cases he
  · have hleftover := leftover_of_not_ready hready
    obtain ⟨hterminated, heq⟩ := hlead h
    obtain ⟨hterminated', heq'⟩ := hlead' h'
    have hstuck : ¬ Stuck t := by
      intro hstuck
      obtain ⟨e, he⟩ := fails_of_leftover ctx' (s := φ.state t) (ahead_cursor rfl)
        (leftover_state hleftover) hbarren (.inl (stuck_state hstuck)) hterminated'
      rw [← heq', hok] at he
      cases he
    have hends : EndsAlike ctx ctx' φ t rest :=
      .of_leftover hφ htail hgap hrest hterminated hleftover hstuck
    obtain ⟨_, _, hends, _⟩ := hends
    obtain ⟨bs, hout, _⟩ := hends.outcome_eq hterminated
    exact ⟨_, heq.trans hout⟩

/-- A run that succeeds comes through the frame to between the blocks of the document, before the
blank line behind the list. -/
theorem ends_of_outcome (htail : φ.tail = gap ++ rest) (hgap : IsGap gap) (hrest : IsBreak rest)
    {blocks : List Block} {diagnostics : List Diagnostic}
    (hok : s.outcome ctx h = .ok (blocks, diagnostics)) :
    Ends ctx' (φ.state s) rest (bare blocks ++ bare φ.blocks)
      (diagnostics.map φ.diagnostic ++ φ.diagnostics) := by
  have h' : (φ.state s).cursor.Terminated := hφ.terminated h
  rcases run_cases hφ hending hc h h' with
    ⟨⟨e, he⟩, _⟩ | ⟨t, hlead, hlead', hreach, hreach', hready⟩
  · rw [hok] at he
    cases he
  · obtain ⟨hterminated, heq⟩ := hlead h
    have hleftover := leftover_of_not_ready hready
    have hstuck := not_stuck_of_outcome hleftover hterminated (heq.symm.trans hok)
    have hends : EndsAlike ctx ctx' φ t rest :=
      .of_leftover hφ htail hgap hrest hterminated hleftover hstuck
    obtain ⟨bs, ds, hends, hends'⟩ := hends.of_leads hlead hreach hlead' hreach'
    -- What the run ends in is what it comes to.
    obtain ⟨bs', hout, hbare⟩ := hends.outcome_eq h
    rw [hok] at hout
    obtain ⟨rfl, rfl⟩ := Prod.mk.inj (Except.ok.inj hout)
    rw [hbare]
    exact hends'

end

end Frame

end LatexMarkdown.Parse
