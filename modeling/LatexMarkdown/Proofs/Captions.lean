import LatexMarkdown.Proofs.Termination
/-!
  Captions in table floats.

  A caption is dropped where it begins a block of a table float itself (`step_of_between_float`).
  Where an environment that stands in place is open inside the float, and in the text of a paragraph,
  it is kept as text and reported as an unknown command (`exists_of_takeUnknownCommand`), and what is
  reported stays reported (`mem_of_outcome`).  Main statement: `captions_dropped_or_kept`.
-/
namespace LatexMarkdown

open Parse Parse.State

theorem Token.text_of_isCommand {P : Type} {name : Text} {t : Token P}
    (h : t.isCommand name = true) : t.text = name := by
  rw [isCommand, Bool.and_eq_true, beq_iff_eq, beq_iff_eq] at h
  exact h.2

namespace Parse

variable {ctx : Context} {s t : State} {i : OpenInline} {n : Nat} {d : Diagnostic}

/-! ## What is reported stays reported -/

theorem State.mem_diagnostics_finishItem (e : OpenEnvironment) (l : OpenList)
    (hd : d ∈ s.diagnostics) : d ∈ (s.finishItem e l).1.diagnostics := by
  obtain ⟨ds, heq, _⟩ := s.exists_finishItem_eq e l
  rw [heq]
  exact List.mem_append_right ds hd

theorem Change.mem_diagnostics (h : Change ctx s t) (hd : d ∈ s.diagnostics) :
    d ∈ t.diagnostics := by
  cases h with
  | warn => exact .tail _ hd
  | closeEnvironment =>
    simp only [State.closeEnvironment]
    split
    case h_4 =>
      rw [State.diagnostics_addBlocks]
      exact State.mem_diagnostics_finishItem _ _ hd
    all_goals rwa [State.diagnostics_addBlocks]
  | beginItem => exact State.mem_diagnostics_finishItem _ _ hd
  | closeHeading =>
    simp only [State.closeHeading]
    split
    · apply List.mem_cons_of_mem
      rwa [State.diagnostics_addBlocks]
    · rwa [State.diagnostics_addBlocks]
  | closeTable =>
    rw [State.diagnostics_addBlocks, State.warnRagged_eq]
    exact List.mem_append_right _ hd
  | closeLabel =>
    simp only [State.closeLabel]
    split <;> exact hd
  | closeParagraph =>
    simp only [State.closeParagraph]
    split
    · exact hd
    · rwa [State.diagnostics_addBlocks]
  | addLeaf => rwa [State.diagnostics_addBlocks]
  | _ => exact hd

theorem State.mem_of_outcome (h : s.cursor.Terminated) {blocks : List Block}
    {diagnostics : List Diagnostic} (ho : s.outcome ctx h = .ok (blocks, diagnostics))
    (hd : d ∈ s.diagnostics) : d ∈ diagnostics := by
  have hkeep : ∀ s t : State, d ∈ s.diagnostics → Change ctx s t → d ∈ t.diagnostics :=
    fun _ _ hd h => h.mem_diagnostics hd
  have hyields := State.yields_outcome hkeep hd h
  rw [ho] at hyields
  obtain ⟨u, hu, _, _, heq⟩ := hyields
  rw [(Prod.mk.inj heq).2]
  exact hu

/-- A run that a reading goes through comes to what the reading comes to. -/
theorem State.Runs.leads (h : Runs ctx n s t) : Leads ctx s t := by
  induction h with
  | refl s => exact .refl s
  | step h _ ih => exact (Leads.of_step h).trans ih

/-- Where a reading does not fail, no step of it does. -/
theorem State.exists_step_of_outcome (h : s.cursor.Terminated) {r : List Block × List Diagnostic}
    (ho : s.outcome ctx h = .ok r) : ∃ next?, s.step ctx = .ok next? := by
  cases hs : s.step ctx with
  | ok next? => exact ⟨next?, rfl⟩
  | error f =>
    rw [outcome_of_error h hs] at ho
    cases ho

/-! ## Where captions stand -/

/-- Does an environment's body stand in place, without a float around a table? -/
def Role.isInPlace : Role → Bool
  | inPlace => true
  | _ => false

namespace State

/-- Is a float around a table open, and inside it nothing but environments that stand in place? -/
def withinFloat (s : State) : Bool :=
  (s.environments.dropWhile (·.role.isInPlace)).head?.any (·.role.isFloat)

/-- The cursor at the token that comes next; between blocks that is no spacing. -/
def facing (s : State) : Cursor := if s.inline?.isSome then s.cursor else s.cursor.skipSpacing

/-- Does a caption come next, between blocks or in the text of a paragraph? -/
def atCaption (s : State) : Bool :=
  s.inline?.all (·.surround == .paragraph) && s.facing.current.isCommand "caption"

/-- The report that the caption that comes next is an unknown command. -/
def captionReport (s : State) : Diagnostic :=
  ⟨.unknownCommand "caption", s.facing.current.start, s.facing.current.stop⟩

/-- What was gathered of the content that is being read. -/
def gathered (s : State) : Fragments := (s.inline?.map fun i => i.run.fragments).getD {}

/-- The same with the name of the caption that comes next kept as text. -/
def withCaption (s : State) : Fragments :=
  s.gathered.pushText s.facing.current.start s.facing.current.stop "\\caption"

/-! ## One step -/

/-- A caption is no heading, no formatting command and not dropped everywhere. -/
theorem lookup_caption : headingLevel? "caption" = none ∧ droppedArgumentCount? "caption" = none ∧
    InlineStyle.ofCommand? "caption" = none ∧ tableRuleArgumentCount? "caption" = some 1 := by
  decide

/-- So it ends no paragraph. -/
theorem endsAt_caption {t : Token} (hc : t.isCommand "caption" = true) (inList : Bool) :
    Surround.paragraph.endsAt inList t = false := by
  have htext : t.text = "caption" := Token.text_of_isCommand hc
  apply endsAt_paragraph_command (Token.kind_of_isCommand hc)
  · rw [htext]
    exact lookup_caption.1
  · intro _
    rw [htext]
    decide

/-- Between blocks of a float the caption is dropped with its argument. -/
theorem takeOtherCommand_float (hc : s.cursor.current.isCommand "caption" = true)
    (hf : s.inFloat = true) :
    s.takeOtherCommand ctx =
      (skipCommand ctx.source 1 s.cursor).map fun c => ({ s with cursor := c } : State) := by
  obtain ⟨hheading, hdropped, _, hrule⟩ := lookup_caption
  have htext : s.cursor.current.text = "caption" := Token.text_of_isCommand hc
  have hcount : s.droppedCount? s.cursor.current.text = some 1 := by
    rw [droppedCount?, htext, hdropped, hf, if_pos rfl, hrule]
    rfl
  simp only [takeOtherCommand, hcount]
  rw [htext, hheading]
  show (skipCommand ctx.source 1 s.cursor >>= fun c => pure _) = _
  cases skipCommand ctx.source 1 s.cursor <;> rfl

/-- Between other blocks it begins a paragraph. -/
theorem takeOtherCommand_caption (hc : s.cursor.current.isCommand "caption" = true)
    (hf : s.inFloat = false) : s.takeOtherCommand ctx = s.beginParagraph ctx := by
  obtain ⟨hheading, hdropped, _, _⟩ := lookup_caption
  have htext : s.cursor.current.text = "caption" := Token.text_of_isCommand hc
  have hcount : s.droppedCount? s.cursor.current.text = none := by
    rw [droppedCount?, htext, hdropped, hf]
    rfl
  simp only [takeOtherCommand, hcount]
  rw [htext, hheading]

/-- In the text of a paragraph it is an unknown command. -/
theorem takeToken_caption (hc : s.cursor.current.isCommand "caption" = true)
    (hi : i.surround = .paragraph) : s.takeToken ctx i = s.takeUnknownCommand i := by
  obtain ⟨hheading, hdropped, hstyle, _⟩ := lookup_caption
  have htext : s.cursor.marker.text = "caption" := Token.text_of_isCommand hc
  have hcount : i.droppedCount? "caption" = none := by
    rw [OpenInline.droppedCount?, hdropped, hi]
    rfl
  have hnames : ∀ name ∈ (["newline", "href", "url", "verb", "verb*"] : List Text),
      (Text.ofString "caption" = name) = False := by decide
  have hcommand : s.takeToken ctx i = s.takeCommand ctx i := by
    simp only [takeToken, Cursor.marker, Token.kind_of_isCommand hc]
  rw [hcommand]
  simp only [takeCommand, htext, hheading, hcount, hstyle, Option.isSome_none, Bool.false_eq_true,
    if_false, hnames _ (.head _), hnames _ (.tail _ (.head _)),
    hnames _ (.tail _ (.tail _ (.head _))), hnames _ (.tail _ (.tail _ (.tail _ (.head _)))),
    hnames _ (.tail _ (.tail _ (.tail _ (.tail _ (.head _))))), or_self]

/-- An unknown command is kept as text, reported, and changes neither blocks nor environments. -/
theorem of_takeUnknownCommand (h : s.takeUnknownCommand i = .ok t) :
    t.blocks = s.blocks ∧ t.environments = s.environments ∧
      t.diagnostics = ⟨.unknownCommand s.cursor.current.text, s.cursor.current.start,
        s.cursor.current.stop⟩ :: s.diagnostics ∧
      ∃ j, t.inline? = some j ∧ j.line = i.line ∧ j.arguments = i.arguments ∧
        (j.run.fragments = i.run.fragments.pushText s.cursor.current.start s.cursor.current.stop
          (0x5C :: s.cursor.current.text) ∨
        j.run.fragments = (i.run.fragments.pushText s.cursor.current.start s.cursor.current.stop
          (0x5C :: s.cursor.current.text)).pushText s.cursor.advance.current.start
            s.cursor.advance.current.stop "\x7b") := by
  simp only [takeUnknownCommand, openKeptBraces] at h
  split at h
  · -- An opening brace right behind it is kept as well.
    obtain ⟨_, _, h⟩ := exists_of_bind_ok h
    cases Except.ok.inj h
    exact ⟨rfl, rfl, rfl, _, rfl, rfl, rfl, .inr rfl⟩
  · cases Except.ok.inj h
    exact ⟨rfl, rfl, rfl, _, rfl, rfl, rfl, .inl rfl⟩

/-- Between blocks a caption is read as a command that is no item marker. -/
theorem step_of_between (hn : s.inline? = none)
    (hc : s.facing.current.isCommand "caption" = true) :
    s.step ctx = some <$> ({ s with cursor := s.facing } : State).takeOtherCommand ctx := by
  have hfacing : s.facing = s.cursor.skipSpacing := by rw [facing, hn]; rfl
  have htext : s.facing.current.text = "caption" := Token.text_of_isCommand hc
  have hitem : s.facing.current.text ≠ "item" := by
    rw [htext]
    decide
  have hbegin : ({ s with cursor := s.facing } : State).beginBlock ctx =
      ({ s with cursor := s.facing } : State).takeOtherCommand ctx := by
    simp only [beginBlock, Token.kind_of_isCommand hc]
    exact takeBlockCommand_of_ne_item hitem
  rw [← hbegin]
  simp only [step, hn, takeBlock, ← hfacing, Token.kind_of_isCommand hc]

/-- Directly in a float it is passed over. -/
theorem step_of_between_float (ctx : Context) (hn : s.inline? = none) (hf : s.inFloat = true)
    (hc : s.facing.current.isCommand "caption" = true) :
    s.step ctx = (skipCommand ctx.source 1 s.facing).map fun c => some { s with cursor := c } := by
  rw [step_of_between hn hc, takeOtherCommand_float (s := { s with cursor := s.facing }) hc hf]
  cases skipCommand ctx.source 1 s.facing <;> rfl

/-- Anywhere else between blocks or in a paragraph it is taken for an unknown command. -/
theorem exists_step_unknown (ctx : Context) (hat : s.atCaption = true)
    (hf : ¬ (s.inline? = none ∧ s.inFloat = true)) :
    ∃ (u : State) (i : OpenInline), u.cursor = s.facing ∧ u.blocks = s.blocks ∧
      u.environments = s.environments ∧ u.diagnostics = s.diagnostics ∧
      i.run.fragments = s.gathered ∧
      s.step ctx = some <$> u.takeUnknownCommand i := by
  rw [atCaption, Bool.and_eq_true] at hat
  obtain ⟨hparagraph, hc⟩ := hat
  cases hn : s.inline? with
  | none =>
    -- It begins a paragraph.
    have hfloat : s.inFloat = false := by simpa [hn] using hf
    let i : OpenInline := { line := .paragraph s.facing.current.start }
    have hgathered : s.gathered = {} := by rw [gathered, hn]; rfl
    refine ⟨{ s with cursor := s.facing, inline? := some i }, i, rfl, rfl, rfl, rfl,
      hgathered.symm, ?_⟩
    rw [step_of_between hn hc,
      takeOtherCommand_caption (s := { s with cursor := s.facing }) hc hfloat,
      beginParagraph_of_not_endsAt (s := { s with cursor := s.facing }) (endsAt_caption hc _)]
    exact congrArg (some <$> ·) (takeToken_caption hc rfl)
  | some i =>
    have hfacing : s.facing = s.cursor := by rw [facing, hn]; rfl
    rw [hfacing] at hc
    have hi : i.surround = .paragraph := by simpa [hn] using hparagraph
    have hends : i.surround.endsAt s.inList s.cursor.current = false := by
      rw [hi]
      exact endsAt_caption hc s.inList
    have hgathered : s.gathered = i.run.fragments := by rw [gathered, hn]; rfl
    refine ⟨s, i, hfacing.symm, rfl, rfl, rfl, hgathered.symm, ?_⟩
    rw [step_of_not_endsAt hn hends, takeToken_caption hc hi]

end State

end Parse

/-! ## Documents -/

variable {source : Text} {options : Options} {settings : Settings} {parsed : Parsed} {n : Nat}
  {s : State}

/-- A caption is dropped where it begins a block of a table float itself.  Anywhere else between blocks,
so inside an environment of the float too, and in the text of a paragraph, it is kept as text and
reported as an unknown command. -/
theorem captions_dropped_or_kept (hsettings : options.resolve = .ok settings)
    (hparsed : parseDocument source options = .ok parsed)
    (hruns : Runs (.of settings source) n (.initial settings source) s)
    (hat : s.atCaption = true) :
    (s.inline? = none ∧ s.inFloat = true →
      ∃ c, skipCommand source.toArray 1 s.facing = .ok c ∧
        s.step (.of settings source) = .ok (some { s with cursor := c })) ∧
    (¬ (s.inline? = none ∧ s.inFloat = true) →
      s.captionReport ∈ parsed.diagnostics ∧
      ∃ t, s.step (.of settings source) = .ok (some t) ∧ t.blocks = s.blocks ∧
        t.environments = s.environments ∧ t.diagnostics = s.captionReport :: s.diagnostics ∧
        t.inline?.isSome = true ∧
        (t.gathered = s.withCaption ∨ t.gathered = s.withCaption.pushText
          s.facing.advance.current.start s.facing.advance.current.stop "\x7b")) := by
  obtain ⟨settings', blocks, diagnostics, hsettings', houtcome, rfl⟩ :=
    exists_of_parseDocument_ok hparsed
  cases Except.ok.inj (hsettings.symm.trans hsettings')
  -- From `s` on the reading comes to the same, so that its step does not fail.
  obtain ⟨hs, heq⟩ := hruns.leads (terminated_initial settings source)
  have hs_outcome : s.outcome (.of settings source) hs = .ok (blocks, diagnostics) :=
    heq.symm.trans houtcome
  obtain ⟨next?, hstep⟩ := exists_step_of_outcome hs hs_outcome
  have hc : s.facing.current.isCommand "caption" = true := by
    rw [atCaption, Bool.and_eq_true] at hat
    exact hat.2
  refine ⟨?_, ?_⟩
  · rintro ⟨hn, hf⟩
    have hfloat := step_of_between_float (.of settings source) hn hf hc
    rw [hfloat] at hstep ⊢
    cases hskip : skipCommand source.toArray 1 s.facing with
    | error f =>
      rw [show (Context.of settings source).source = source.toArray from rfl, hskip] at hstep
      cases hstep
    | ok c =>
      refine ⟨c, rfl, ?_⟩
      rw [show (Context.of settings source).source = source.toArray from rfl, hskip]
      rfl
  · intro hf
    obtain ⟨u, i, hcursor, hblocks, henvironments, hdiagnostics, hfragments, hunknown⟩ :=
      exists_step_unknown (.of settings source) hat hf
    rw [hunknown] at hstep
    obtain ⟨t, ht, rfl⟩ := exists_of_map_ok hstep
    obtain ⟨htb, hte, htd, j, hj, _, _, htext⟩ := of_takeUnknownCommand ht
    rw [hcursor, Token.text_of_isCommand hc] at htext htd
    rw [hfragments] at htext
    have hsome : s.step (.of settings source) = .ok (some t) := by rw [hunknown, ht]; rfl
    have hreport : t.diagnostics = s.captionReport :: s.diagnostics := by rw [htd, hdiagnostics]; rfl
    have hgathered : t.gathered = j.run.fragments := by rw [gathered, hj]; rfl
    refine ⟨?_, t, hsome, htb.trans hblocks, hte.trans henvironments, hreport, by rw [hj]; rfl,
      hgathered ▸ htext⟩
    -- The report is there after the step, and stays.
    have ht_outcome := (outcome_of_some hs hsome).symm.trans hs_outcome
    apply List.mem_reverse.mpr
    exact mem_of_outcome _ ht_outcome (by rw [hreport]; exact .head _)

/-- The state so many steps on, when the reading goes on that far. -/
def Parse.State.after (ctx : Context) : Nat → State → Option State
  | 0, s => some s
  | n + 1, s => (s.step ctx).toOption.join.bind (after ctx n)

theorem Parse.State.runs_of_after {ctx : Context} {t : State} (h : s.after ctx n = some t) :
    Runs ctx n s t := by
  induction n generalizing s with
  | zero => exact Option.some.inj h ▸ .refl s
  | succ n ih =>
    obtain ⟨u, hu, hrest⟩ := Option.bind_eq_some_iff.mp h
    refine .step ?_ (ih hrest)
    cases hstep : s.step ctx with
    | error f =>
      rw [hstep] at hu
      cases hu
    | ok next? =>
      rw [hstep] at hu
      exact congrArg Except.ok hu

/-- A caption that begins a block of a float. -/
def directCaption : Text := "\\begin\x7btable\x7d\\caption\x7bx\x7d\\end\x7btable\x7d"

/-- A caption in an environment inside a float. -/
def centredCaption : Text :=
  "\\begin\x7btable\x7d\\begin\x7bcenter\x7d\\caption\x7bx\x7d\\end\x7bcenter\x7d\\end\x7btable\x7d"

/-- The caption of `centredCaption` is met between blocks, two steps on. -/
theorem after_centredCaption :
    ((State.initial {} centredCaption).after (.of {} centredCaption) 2).map
      (fun s => (s.withinFloat, s.atCaption, s.inFloat, s.captionReport)) =
        some (true, true, false, ⟨.unknownCommand "caption", 27, 35⟩) := by
  decide +kernel

/-- The one is dropped and the other kept. -/
theorem captions_dropped_or_kept_sample :
    (∃ parsed s c, parseDocument directCaption {} = .ok parsed ∧
      Runs (.of {} directCaption) 1 (.initial {} directCaption) s ∧ s.atCaption = true ∧
      s.step (.of {} directCaption) = .ok (some { s with cursor := c })) ∧
    ∃ parsed s, parseDocument centredCaption {} = .ok parsed ∧
      Runs (.of {} centredCaption) 2 (.initial {} centredCaption) s ∧ s.atCaption = true ∧
      s.captionReport ∈ parsed.diagnostics := by
  have hresolve : ({} : Options).resolve = .ok {} := rfl
  refine ⟨?_, ?_⟩
  · have hread : (Document.parse {} directCaption).map (·.diagnostics.length) = .ok 0 := by
      decide +kernel
    have hafter : ((State.initial {} directCaption).after (.of {} directCaption) 1).map
        (fun s => (s.atCaption, s.inline?.isNone, s.inFloat)) = some (true, true, true) := by
      decide +kernel
    obtain ⟨parsed, hparsed, _⟩ := exists_of_parse_map hresolve hread
    obtain ⟨s, hs, heq⟩ := Option.map_eq_some_iff.mp hafter
    simp only [Prod.mk.injEq, Option.isNone_iff_eq_none] at heq
    obtain ⟨hat, hnone, hfloat⟩ := heq
    have hruns := runs_of_after hs
    obtain ⟨c, _, hstep⟩ := (captions_dropped_or_kept hresolve hparsed hruns hat).1 ⟨hnone, hfloat⟩
    exact ⟨parsed, s, c, hparsed, hruns, hat, hstep⟩
  · have hread : (Document.parse {} centredCaption).map (·.diagnostics.length) = .ok 1 := by
      decide +kernel
    obtain ⟨parsed, hparsed, _⟩ := exists_of_parse_map hresolve hread
    obtain ⟨s, hs, heq⟩ := Option.map_eq_some_iff.mp after_centredCaption
    simp only [Prod.mk.injEq] at heq
    obtain ⟨_, hat, hfloat, _⟩ := heq
    have hruns := runs_of_after hs
    obtain ⟨hreport, _⟩ := (captions_dropped_or_kept hresolve hparsed hruns hat).2 (by simp [hfloat])
    exact ⟨parsed, s, hparsed, hruns, hat, hreport⟩

/-- Captions within floats are not always dropped: this one is written as it stands, and reported. -/
theorem not_forall_captions_dropped :
    ¬ ∀ (source : Text) (conversion : Conversion) (n : Nat) (s : State),
      convertWithDiagnostics source = .ok conversion →
      Runs (.of {} source) n (.initial {} source) s → s.withinFloat = true → s.atCaption = true →
      (∃ c, s.step (.of {} source) = .ok (some { s with cursor := c })) ∧
        s.captionReport ∉ conversion.diagnostics := by
  intro hall
  have hread : (convertWithDiagnostics centredCaption).toOption.map
      (fun c => (c.output, c.diagnostics)) =
        some (Text.ofString "\\caption\x7bx\x7d", [⟨.unknownCommand "caption", 27, 35⟩]) := by
    decide +kernel
  obtain ⟨s, hs, heq⟩ := Option.map_eq_some_iff.mp after_centredCaption
  simp only [Prod.mk.injEq] at heq
  obtain ⟨hwithin, hat, _, hreport⟩ := heq
  cases hconvert : convertWithDiagnostics centredCaption with
  | error e =>
    rw [hconvert] at hread
    cases hread
  | ok conversion =>
    rw [hconvert] at hread
    have hdiagnostics : conversion.diagnostics = [⟨.unknownCommand "caption", 27, 35⟩] :=
      (Prod.mk.inj (Option.some.inj hread)).2
    obtain ⟨_, hnot⟩ := hall centredCaption conversion 2 s hconvert (runs_of_after hs) hwithin hat
    apply hnot
    rw [hreport, hdiagnostics]
    exact .head _

end LatexMarkdown
