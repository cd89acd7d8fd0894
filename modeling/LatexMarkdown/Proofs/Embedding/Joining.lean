import LatexMarkdown.Proofs.Embedding.Tokens
/-!
  A text, a blank line, and another text.

  The tokens of the first text are the same in the whole, so a run over the whole comes to between
  the blocks of the document at the blank line, with the blocks and diagnostics of the first text.
  What is left then is the second text in a frame, and the run over it is followed to its end
  (`outcomeOf_append`).
-/
namespace LatexMarkdown.Parse

variable {settings : Settings} {first second : Text}

/-! ## Tokens passed -/

/-- Nothing is lost as a cursor moves. -/
theorem append_ahead_of_reaches {c d : Cursor} (hc : c.Terminated) (h : c.Reaches d) :
    d.passed.reverse ++ d.ahead = c.passed.reverse ++ c.ahead := by
  obtain ⟨n, rfl⟩ := h
  induction n generalizing c with
  | zero => rfl
  | succ n ih =>
    rw [Cursor.advanceBy_succ, ih hc.advance]
    by_cases hk : c.current.kind = .endOfFile
    · rw [Cursor.advance, if_pos hk]
    · obtain ⟨t, rest, ha⟩ := List.exists_cons_of_ne_nil (Cursor.ahead_ne_nil hc hk)
      have ht : t.kind ≠ .endOfFile := Cursor.current_of_ahead ha ▸ hk
      rw [Cursor.advance_of_ahead ha ht, ha, List.reverse_cons, List.append_assoc,
        List.singleton_append]

/-- The token passed last is the one in front of what is left. -/
theorem head?_passed_of_reaches {c d : Cursor} {l rest : List Token} {t : Token}
    (hc : c.Terminated) (h : c.Reaches d) (hp : c.passed = []) (ha : c.ahead = l ++ t :: rest)
    (hd : d.ahead = rest) : d.passed.head? = some t := by
  have hall := append_ahead_of_reaches hc h
  rw [hp, ha, hd, List.reverse_nil, List.nil_append, List.append_cons] at hall
  rw [← List.getLast?_reverse, List.append_cancel_right hall, List.getLast?_concat]

namespace Frame

/-! ## Marks that reading goes by -/

/-- The frame that adds nothing.  It leaves a token the marks that reading goes by. -/
def plain : Frame := {}

theorem lawful_plain : plain.Lawful := ⟨rfl, .nil, fun _ _ h => by cases h⟩

/-- A run over a source goes by these marks only. -/
theorem outcome_plain {settings : Settings} {source : Text} {s : State}
    (hs : plain.state (State.initial settings source) = s) (h : s.cursor.Terminated) :
    s.outcome (.of settings source) h = plain.outcome (outcomeOf settings source) := by
  subst hs
  apply outcome_state lawful_plain rfl
  exact ⟨source.terminated_cursor _, Text.kind_ahead_cursor _ _, fun _ _ => rfl, rfl⟩

/-- The frame that puts tokens behind a list in place of its end. -/
def before (ending : List Token) (last : Token) : Frame :=
  { ending? := some (ending.map plain.token, plain.token last) }

/-- Where reading a list of tokens begins. -/
def start (own : List Token) (last : Token) : State := { cursor := { ahead := own, final := last } }

/-- Reading a source begins with its first tokens, in front of the others. -/
theorem state_initial {source : Text} {own ending : List Token} {last : Token}
    (h : source.tokens settings.keepComments = own ++ (ending ++ [last])) (other : Token) :
    plain.state (State.initial settings source) = (before ending last).state (start own other) := by
  have hcursor : source.cursor settings.keepComments
      = ({ ahead := own ++ ending, final := last } : Cursor) := by
    rw [Text.cursor, h, ← List.append_assoc, Cursor.ofTokens, List.dropLast_concat,
      List.getLast?_concat]
    rfl
  simp [State.initial, hcursor, start, state, cursor, before, tail, plain, token, offset]

theorem cursor_before (own ending : List Token) (last other : Token) :
    ((before ending last).state (start own other)).cursor
      = { ahead := own.map plain.token ++ ending.map plain.token, final := plain.token last } := rfl

theorem lawful_before {ending : List Token} {last : Token} (hending : Inert (ending.map plain.token))
    (hlast : last.kind = .endOfFile) : (before ending last).Lawful := by
  refine ⟨rfl, hending, fun tail last' h => ?_⟩
  cases h
  exact hlast

/-- Offsets that do not move leave a diagnostic as it is. -/
theorem map_diagnostic {φ : Frame} (h : φ.shift = 0) (diagnostics : List Diagnostic) :
    diagnostics.map φ.diagnostic = diagnostics := by
  have hid : φ.diagnostic = id := by
    funext d
    simp [diagnostic, offset, h]
  rw [hid, List.map_id]

end Frame

/-! ## Spellings -/

theorem spelling_append_left {t : Token} (h : t.stop ≤ first.length) (rest : Text) :
    Source.spelling (first ++ rest).toArray t = Source.spelling first.toArray t := by
  simp only [Source.spelling, Array.toList_extract, List.extract_eq_take_drop]
  rw [← List.drop_take, ← List.drop_take, List.take_append_of_le_length h]

theorem spelling_append_right (φ : Frame) {before : Text} (h : φ.shift = before.length)
    (second : Text) (t : Token) :
    Source.spelling (before ++ second).toArray (φ.token t) = Source.spelling second.toArray t := by
  simp only [Source.spelling, Array.toList_extract, List.extract_eq_take_drop, Frame.start_token,
    Frame.stop_token, Frame.offset, h]
  rw [Nat.add_sub_add_right, Nat.add_comm, List.drop_length_add_append]

/-! ## The end of the first text -/

/-- Between the blocks of the document, spacing is passed. -/
theorem Ends.of_spacing {ctx : Context} {s : State} {l rest : List Token}
    {blocks : List (Block Unit)} {diagnostics : List Diagnostic}
    (h : Ends ctx s (l ++ rest) blocks diagnostics) (hl : ∀ t ∈ l, t.isSpacing = true) :
    Ends ctx s rest blocks diagnostics := by
  obtain ⟨t, hlead, hreach, ha, hi, he, hblocks, hdiagnostics⟩ := h
  obtain ⟨c, hreach', hc, hlead'⟩ := State.Leads.of_spacing ctx hi ha hl
  exact ⟨_, hlead.trans hlead', hreach.trans hreach', hc, hi, he, hblocks, hdiagnostics⟩

section

variable {own ending : List Token} {last : Token}
  (htokens : first.tokens settings.keepComments = own ++ (ending ++ [last]))

include htokens

theorem terminated_start : (Frame.start own last).cursor.Terminated := by
  rw [← List.append_assoc] at htokens
  exact (Text.tokens_spec htokens).1

/-- The first tokens of a text are read in front of anything as they are in the text. -/
theorem carries_start (φ : Frame) (hφ : φ.shift = 0) (rest : Text) :
    φ.Carries (.of settings first) (.of settings (first ++ rest)) (Frame.start own last).cursor := by
  have hspec := htokens
  rw [← List.append_assoc] at hspec
  obtain ⟨hlast, hown⟩ := Text.tokens_spec hspec
  refine ⟨hlast, fun t ht => (hown t (List.mem_append_left _ ht)).1, fun t ht => ?_, rfl⟩
  have hstop := (hown t (List.mem_append_left _ ht)).2
  refine Eq.trans ?_ (spelling_append_left hstop rest)
  simp [Context.of, Source.spelling, Frame.offset, hφ]

/-- Where a text can be read, its first tokens can be read by themselves, to the same end. -/
theorem outcome_start (hending : IsLineEnd ending) {blocks : List Block}
    {diagnostics : List Diagnostic} (hok : outcomeOf settings first = .ok (blocks, diagnostics))
    (h : (Frame.start own last).cursor.Terminated) :
    ∃ bs, (Frame.start own last).outcome (.of settings first) h = .ok (bs, diagnostics) ∧
      bare bs = bare blocks := by
  have hline := hending.map_token Frame.plain
  obtain ⟨gap, rest, htail, hgap, hrest, hspace⟩ := hline.split
  have hφ : (Frame.before ending last).Lawful := Frame.lawful_before hline.barren.inert h
  have hcarries := carries_start htokens (Frame.before ending last) rfl []
  rw [List.append_nil] at hcarries
  have hsome : (Frame.before ending last).ending? ≠ none := by simp [Frame.before]
  have h' := hφ.terminated h
  have hframed : ((Frame.before ending last).state (Frame.start own last)).outcome
      (.of settings first) h' = Frame.plain.outcome (.ok (blocks, diagnostics)) := by
    rw [← hok]
    exact Frame.outcome_plain (Frame.state_initial htokens last) h'
  obtain ⟨⟨bs, ds⟩, hbs⟩ := Frame.outcome_of_framed hφ hsome hcarries h h' htail hgap hrest
    hline.barren hframed
  have hends := Frame.ends_of_outcome hφ hsome hcarries h htail hgap hrest hbs
  rw [← List.append_nil rest] at hends
  obtain ⟨bs', hout, hbare⟩ := (hends.of_spacing hspace).outcome_eq h'
  rw [hframed] at hout
  obtain ⟨rfl, hds⟩ := Prod.mk.inj (Except.ok.inj hout)
  have hdiagnostics : diagnostics = ds := by
    rw [Frame.map_diagnostic rfl, Frame.map_diagnostic rfl] at hds
    exact List.append_cancel_right hds
  refine ⟨bs, by rw [hbs, hdiagnostics], ?_⟩
  have hplain : bare (blocks.map (Block.mapOffsets Frame.plain.offset) ++ Frame.plain.blocks)
      = bare blocks := by
    simp [bare, Function.comp_def, Frame.plain]
  rw [← hplain, hbare]
  exact (List.append_nil _).symm

end

/-- A text that can be read does not end in the body of a raw environment. -/
theorem not_endsRaw {r : List Block × List Diagnostic} (hok : outcomeOf settings first = .ok r) :
    ¬ EndsRaw (first.tokens settings.keepComments) := by
  rintro ⟨own, b, body, last, htokens, hb, hname, hbody⟩
  have h : (Frame.start own last).cursor.Terminated := terminated_start htokens
  have hbarren : Barren ((b :: body).map Frame.plain.token) := by
    refine .raw hb hname fun t ht => ?_
    obtain ⟨u, hu, rfl⟩ := List.mem_map.mp ht
    exact hbody u hu
  have hφ : (Frame.before (b :: body) last).Lawful := Frame.lawful_before hbarren.inert h
  have hcarries := carries_start htokens (Frame.before (b :: body) last) rfl []
  rw [List.append_nil] at hcarries
  have h' := hφ.terminated h
  obtain ⟨e, he⟩ := Frame.fails_of_raw hφ (by simp [Frame.before]) hcarries h h' hbarren
    ⟨_, List.mem_cons_self, hb⟩
  have hframed := Frame.outcome_plain (Frame.state_initial htokens last) h'
  rw [he, hok] at hframed
  cases hframed

/-! ## The second text -/

/-- The frame of a text that is read from a state between blocks on. -/
def Frame.behind (shift : Nat) (s : State) : Frame :=
  { shift, index := s.cursor.index, passed := s.cursor.passed, blocks := s.blocks,
    diagnostics := s.diagnostics }

/-- Between the blocks of the document, before the tokens of a text, reading goes on as it begins
with that text by itself. -/
theorem state_behind {s : State} {shift : Nat} {own : List Token} {last : Token}
    (htokens : second.tokens settings.keepComments = own ++ [last])
    (ha : s.cursor.ahead = own.map (Frame.behind shift s).token)
    (hf : s.cursor.final = (Frame.behind shift s).token last) (hi : s.inline? = none)
    (he : s.environments = []) :
    (Frame.behind shift s).state (State.initial settings second) = s := by
  have hcursor : second.cursor settings.keepComments
      = ({ ahead := own, final := last } : Cursor) := by
    rw [Text.cursor, htokens, Cursor.ofTokens, List.dropLast_concat, List.getLast?_concat]
    rfl
  obtain ⟨⟨passed, ahead, final, index⟩, blocks, environments, inline?, diagnostics⟩ := s
  simp only at ha hf hi he
  subst hi he
  simp [State.initial, hcursor, Frame.state, Frame.cursor, Frame.behind, Frame.tail, ha, hf]

/-- A run goes on there like a run over that text. -/
theorem outcome_behind {s : State} {read : Text} {shift : Nat} {own : List Token} {last : Token}
    (hshift : shift = read.length) (htokens : second.tokens settings.keepComments = own ++ [last])
    (ha : s.cursor.ahead = own.map (Frame.behind shift s).token)
    (hf : s.cursor.final = (Frame.behind shift s).token last) (hi : s.inline? = none)
    (he : s.environments = []) (hstop : s.cursor.lastStop = shift) (h : s.cursor.Terminated) :
    s.outcome (.of settings (read ++ second)) h
      = (Frame.behind shift s).outcome (outcomeOf settings second) := by
  have hstate := state_behind htokens ha hf hi he
  have hφ : (Frame.behind shift s).Lawful := ⟨hstop, .nil, fun _ _ h => by cases h⟩
  have hcarries : (Frame.behind shift s).Carries (.of settings second)
      (.of settings (read ++ second)) (State.initial settings second).cursor :=
    ⟨second.terminated_cursor _, Text.kind_ahead_cursor _ _,
      fun t _ => spelling_append_right _ hshift second t, rfl⟩
  have hrun := Frame.outcome_state hφ rfl hcarries (second.terminated_cursor _) (hstate ▸ h)
  simp only [hstate] at hrun
  exact hrun

theorem inert_append {l more : List Token} {blank : Token} (hl : IsLineEnd l)
    (hblank : blank.isBlankLine = true) : Inert (l ++ blank :: more) := by
  rcases hl with rfl | ⟨t, rfl, hk⟩
  · exact .blankLine hblank
  · exact .newLine hk (.blankLine hblank)

theorem IsBreak.append {l more : List Token} {blank : Token} (hl : IsBreak l)
    (hblank : blank.isBlankLine = true) : IsBreak (l ++ blank :: more) := by
  rcases hl with rfl | ⟨t, rest, rfl, ht⟩
  · exact .inr ⟨blank, more, rfl, hblank⟩
  · exact .inr ⟨t, rest ++ blank :: more, rfl, ht⟩

/-- The whole is read to behind the blank line with the blocks and diagnostics of the first text. -/
theorem ends_of_whole {own ending breaks more : List Token} {last blank final : Token} {rest : Text}
    (hfirst : first.tokens settings.keepComments = own ++ (ending ++ [last]))
    (hwhole : Text.tokens (first ++ rest) settings.keepComments
      = own ++ ((breaks ++ blank :: more) ++ [final]))
    (hending : IsLineEnd ending) (hbreaks : IsLineEnd breaks) (hblank : blank.isBlankLine = true)
    {blocks : List Block} {diagnostics : List Diagnostic}
    (hok : outcomeOf settings first = .ok (blocks, diagnostics)) :
    Ends (.of settings (first ++ rest)) (Frame.plain.state (State.initial settings (first ++ rest)))
      (more.map Frame.plain.token) (bare blocks) diagnostics := by
  have h : (Frame.start own last).cursor.Terminated := terminated_start hfirst
  obtain ⟨bs, hbs, hbare⟩ := outcome_start hfirst hending hok h
  have hblank' : (Frame.plain.token blank).isBlankLine = true := hblank
  have htokens : (breaks ++ blank :: more).map Frame.plain.token
      = breaks.map Frame.plain.token ++ Frame.plain.token blank :: more.map Frame.plain.token := by
    rw [List.map_append, List.map_cons]
  have hline := hbreaks.map_token Frame.plain
  obtain ⟨gap, rest', htail, hgap, hrest, hspace⟩ := hline.split
  have hφ : (Frame.before (breaks ++ blank :: more) final).Lawful := by
    apply Frame.lawful_before
    · rw [htokens]
      exact inert_append hline hblank'
    · exact terminated_start hwhole
  rw [htail, List.append_assoc] at htokens
  have hcarries := carries_start hfirst (Frame.before (breaks ++ blank :: more) final) rfl rest
  have hends := Frame.ends_of_outcome hφ (by simp [Frame.before]) hcarries h htokens hgap
    (hrest.append hblank') hbs
  rw [← Frame.state_initial hwhole, Frame.map_diagnostic rfl, hbare] at hends
  -- The blank line is passed too.
  rw [List.append_cons] at hends
  have hpassed := hends.of_spacing (l := rest' ++ [Frame.plain.token blank]) (by
    intro t ht
    rcases List.mem_append.mp ht with ht | ht
    · exact hspace t ht
    · rw [List.mem_singleton.mp ht]
      exact Token.isSpacing_of_isBlankLine hblank')
  simpa [Frame.before, bare] using hpassed

/-- Behind a text that can be read and a blank line, another text is read as it is by itself,
further on. -/
theorem outcomeOf_append {blocks : List Block} {diagnostics : List Diagnostic}
    (hok : outcomeOf settings first = .ok (blocks, diagnostics)) (second : Text) :
    ∃ φ : Frame, φ.shift = first.length + 2 ∧ bare φ.blocks = bare blocks ∧
      φ.diagnostics = diagnostics ∧
      Frame.plain.outcome (outcomeOf settings (first ++ [0x0A, 0x0A] ++ second))
        = φ.outcome (outcomeOf settings second) := by
  have hjoined := (Text.joined_tokens settings.keepComments first second).resolve_left
    (not_endsRaw hok)
  generalize hfirst : first.tokens settings.keepComments = l,
    hwhole : Text.tokens (first ++ 0x0A :: 0x0A :: second) settings.keepComments = l',
    hmore : Text.tokensFrom settings.keepComments .normal ⟨false, true⟩ (first.length + 2) second
      = more at hjoined
  obtain @⟨own, ending, breaks, last, blank, hending, hbreaks, hblank, hstop⟩ := hjoined
  have hne : more ≠ [] := hmore ▸ Text.tokensFrom_ne_nil _ _ _ _ _
  obtain ⟨more, final, rfl⟩ : ∃ more' final, more = more' ++ [final] :=
    ⟨_, _, (List.dropLast_concat_getLast hne).symm⟩
  rw [← List.cons_append, ← List.append_assoc breaks] at hwhole
  rw [List.append_assoc, List.cons_append, List.singleton_append]
  obtain ⟨s, hlead, hreach, ha, hi, he, hblocks, hdiagnostics⟩ :=
    ends_of_whole hfirst hwhole hending hbreaks hblank hok
  have hterminated : (Frame.plain.state (State.initial settings
      (first ++ 0x0A :: 0x0A :: second))).cursor.Terminated :=
    Frame.lawful_plain.terminated (Text.terminated_cursor _ _)
  have hcursor := Frame.cursor_before own (breaks ++ blank :: more) final final
  rw [← Frame.state_initial hwhole final] at hcursor
  -- The blank line was passed last.
  have hlast : s.cursor.lastStop = first.length + 2 := by
    have hahead : (Frame.plain.state (State.initial settings
        (first ++ 0x0A :: 0x0A :: second))).cursor.ahead
        = (own ++ breaks).map Frame.plain.token ++ Frame.plain.token blank
          :: more.map Frame.plain.token := by
      rw [hcursor]
      simp
    rw [Cursor.lastStop, head?_passed_of_reaches hterminated hreach (by rw [hcursor]) hahead ha]
    exact hstop
  -- What is left are the tokens of the second text, further on.
  obtain ⟨own', last', hsecond⟩ := Text.exists_tokens_eq settings.keepComments second
  have hmap : (more ++ [final]).map Frame.plain.token
      = (own' ++ [last']).map (Frame.behind (first.length + 2) s).token := by
    rw [← hmore, ← hsecond]
    exact Text.tokens_shift _ _ (Frame.behind (first.length + 2) s)
  rw [List.map_append, List.map_append] at hmap
  obtain ⟨hown, hfinal⟩ := List.append_inj' hmap rfl
  have hend : s.cursor.final = (Frame.behind (first.length + 2) s).token last' := by
    rw [hreach.final_eq, hcursor]
    exact List.singleton_inj.mp hfinal
  obtain ⟨h', heq⟩ := hlead hterminated
  refine ⟨Frame.behind (first.length + 2) s, rfl, hblocks, hdiagnostics, ?_⟩
  rw [← Frame.outcome_plain rfl hterminated, heq]
  have hlen : first.length + 2 = (first ++ [0x0A, 0x0A]).length := by simp
  have hrun := outcome_behind hlen hsecond (ha.trans hown) hend hi he hlast h'
  simpa using hrun

end LatexMarkdown.Parse
