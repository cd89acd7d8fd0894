import LatexMarkdown.Proofs.Steps.Change
/-!
  Reading inline content, as changes.

  One lemma for each reader of arguments, mathematics and inline content: what it comes to, and what
  it can fail with.  Main statement: `State.yields_takeToken`.
-/
namespace LatexMarkdown.Parse

open Cursor (Reaches)

variable {c : Cursor} {bad : Failure → Prop}

/-! ## Arguments -/

theorem yields_startGroup {owner : Marker} {flaw : Flaw} (ho : bad ⟨flaw, owner⟩) :
    Yields (fun d => c.Reaches d ∧ d.current.kind = .groupOpen) bad (startGroup owner flaw c) := by
  cases h : startGroup owner flaw c with
  | ok d => exact ⟨reaches_of_startGroup h, kind_of_startGroup h⟩
  | error f =>
    unfold startGroup at h
    split at h
    · exact absurd h (by simp)
    · exact Except.error.inj h ▸ ho

theorem yields_readGroup {source : Source} {owner : Marker} {flaw : Flaw} {from' : Cursor}
    (ho : Faults from' ⟨flaw, owner⟩) (hc : from'.Reaches c) :
    Yields (fun r => c.Reaches r.2) (Faults from') (readGroup source owner flaw c) := by
  refine (yields_startGroup ho).bind fun opened _ ⟨hopened, hk⟩ => ?_
  split
  · exact hopened.trans (.advanceBy _ _)
  · exact ⟨opened, hc.trans hopened, .unclosedGroup hk⟩

theorem yields_skipGroups {source : Source} {owner : Marker} {flaw : Flaw} {count : Nat}
    {from' : Cursor} (ho : Faults from' ⟨flaw, owner⟩) (hc : from'.Reaches c) :
    Yields (fun d => c.Reaches d) (Faults from') (skipGroups source owner flaw count c) := by
  induction count generalizing c with
  | zero => exact .refl c
  | succ count ih =>
    refine (yields_readGroup ho hc).bind fun r _ hr => ?_
    exact (ih (hc.trans hr)).mono (fun d hd => hr.trans hd) fun _ => id

/-- A command is dropped with its arguments. -/
theorem yields_skipCommand {source : Source} {count : Nat} (hk : c.current.kind = .command) :
    Yields (fun d => c.advance.Reaches d) (Faults c) (skipCommand source count c) := by
  have hskip := reaches_skipOptionalArgument c.advance
  exact (yields_skipGroups (.current (.missingArgument (.inl hk)))
    ((Reaches.advance c).trans hskip)).mono (fun d hd => hskip.trans hd) fun _ => id

/-! ## Mathematics -/

theorem yields_readMath {source : Source}
    (hk : c.current.kind = .mathInline ∨ c.current.kind = .mathDisplay) :
    Yields (fun r => c.advance.Reaches r.2) (Faults c) (readMath source c) := by
  cases h : readMath source c with
  | ok r => exact reaches_of_readMath h
  | error f =>
    simp only [readMath] at h
    split at h
    · exact absurd h (by simp)
    · exact Except.error.inj h ▸ .current (.unclosedMath hk)

theorem isText_of_mem_mathSpan {start stop : Nat} {body : Text} {n : Inline}
    (h : n ∈ mathSpan start stop body) : n.isText = false := by
  simp only [mathSpan] at h
  split at h
  · cases h
  · rw [List.mem_singleton.mp h]
    rfl

/-- Mathematics after a dollar that is not closed, or what a double dollar ahead opens is not. -/
theorem yields_readDollars (source : Source) (c : Cursor) (opener : Marker) (pieces : List Text) :
    Yields (fun r => ∀ n ∈ r.1, n.isText = false)
      (fun f => f = ⟨.unclosedMath opener.text, opener⟩ ∨ Faults c f)
      (readDollars source opener c.index pieces c.ahead) := by
  -- Along the tokens ahead; the index that a failure is reported with goes with the cursor.
  induction hl : c.ahead generalizing c opener pieces with
  | nil => exact .inl rfl
  | cons t rest ih =>
    rw [readDollars]
    split
    · exact .inl rfl
    next hk =>
    have hcurrent := Cursor.current_of_ahead hl
    have hadvance := Cursor.advance_of_ahead hl hk
    have hindex : c.advance.index = c.index + 1 := by rw [hadvance]
    have hnext (opener : Marker) (pieces : List Text) :=
      ih c.advance opener pieces (by rw [hadvance])
    rw [hindex] at hnext
    split
    · exact fun n => isText_of_mem_mathSpan
    split
    · next hd =>
      -- The second half of the token opens what comes next.
      refine ((hnext _ _).mono (fun _ h => h) fun f hf => ?_).bind fun r _ hr n hn => ?_
      · rcases hf with rfl | hf
        · exact .inr (.current (hcurrent ▸ .unclosedHalf (hcurrent ▸ hd.1) (hcurrent ▸ hd.2)))
        · exact .inr (.of_reaches (.advance c) hf)
      · exact (List.mem_append.mp hn).elim isText_of_mem_mathSpan (hr n)
    · refine ((hnext _ _).mono (fun _ h => h) fun f hf => ?_).bind fun r _ hr => hr
      exact hf.imp_right (.of_reaches (.advance c))

/-- All nodes of inline mathematics are mathematics. -/
theorem yields_readInlineMath {source : Source}
    (hk : c.current.kind = .mathInline ∨ c.current.kind = .mathDisplay) :
    Yields (fun r => ∀ n ∈ r.1, n.isText = false) (Faults c) (readInlineMath source c) := by
  have hne : c.current.kind ≠ .endOfFile := by rcases hk with h | h <;> simp [h]
  simp only [readInlineMath]
  split
  · have hindex : c.advance.index = c.marker.index + 1 := by
      simp [Cursor.advance, hne, Cursor.marker]
    have hahead : c.advance.ahead = c.ahead.tail := by simp [Cursor.advance, hne]
    have hdollars := yields_readDollars source c.advance c.marker []
    rw [hindex, hahead] at hdollars
    refine (hdollars.mono (fun _ h => h) fun f hf => ?_).bind fun r _ hr => hr
    rcases hf with rfl | hf
    · exact .current (.unclosedMath hk)
    · exact .of_reaches (.advance c) hf
  · exact (yields_readMath hk).bind fun _ _ _ n => isText_of_mem_mathSpan

/-- Content without texts is added node by node. -/
theorem foldl_push (f : Fragments) {ns : List Inline} (h : ∀ n ∈ ns, n.isText = false) :
    ns.foldl Fragments.push f = f.pushAll ns := by
  induction ns generalizing f with
  | nil => rfl
  | cons n rest ih =>
    have hpush : f.pushAll (n :: rest) = (f.push n).pushAll rest := by
      have hn := h n List.mem_cons_self
      cases n <;> first | rfl | exact absurd hn (by simp [Inline.isText])
    rw [List.foldl_cons, hpush, ih _ fun m hm => h m (List.mem_cons_of_mem _ hm)]

namespace State

variable {ctx : Context} {s : State} {i : OpenInline}

/-! ## Braces and arguments -/

theorem yields_checkDepth {depth : Nat} {marker : Marker}
    (h : bad ⟨.nestingTooDeep nestingLimit, marker⟩) :
    Yields (fun _ => depth + 1 ≤ nestingLimit) bad (checkDepth depth marker) := by
  unfold checkDepth
  split
  · exact h
  · next hle => exact Nat.le_of_not_lt hle

theorem yields_openBrace (kept : Bool) (hi : s.inline? = some i)
    (hk : s.cursor.current.kind = .groupOpen) :
    Yields (Changes ctx s) (Faults s.cursor) (s.openBrace i kept) := by
  refine (yields_checkDepth (.current (.nestingTooDeep (.inr (.inl hk))))).bind fun _ _ hd => ?_
  exact .single (.openBrace kept hi hk hd)

theorem yields_openKeptBraces :
    Yields (Changes ctx { s with inline? := some i }) (Faults s.cursor) (s.openKeptBraces i) := by
  simp only [openKeptBraces]
  split
  · next hk => exact yields_openBrace true rfl hk
  · exact .refl

/-- An argument is opened at its brace. -/
theorem yields_openArgument {owner : Marker} {flaw : Flaw} {purpose : Purpose} {from' : Cursor}
    (ho : Faults from' ⟨flaw, owner⟩) (hc : from'.Reaches s.cursor) :
    Yields (fun next => s.depth + 1 ≤ nestingLimit ∧
        ∃ opened, s.cursor.Reaches opened ∧ opened.current.kind = .groupOpen ∧
        next = { s with
          cursor := opened.advance
          inline? := some { i with
            run := {}
            arguments := { purpose, opener := opened.marker, outer := i.run } :: i.arguments } })
      (Faults from') (s.openArgument i owner flaw purpose) := by
  refine (yields_startGroup ho).bind fun opened _ ⟨hopened, hk⟩ => ?_
  have hdeep : Faults from' ⟨.nestingTooDeep nestingLimit, opened.marker⟩ :=
    ⟨opened, hc.trans hopened, .nestingTooDeep (.inr (.inl hk))⟩
  exact (yields_checkDepth hdeep).bind fun _ _ hd => ⟨hd, opened, hopened, hk, rfl⟩

/-! ## Commands -/

theorem yields_takeUnknownCommand (hi : s.inline? = some i)
    (hk : s.cursor.current.kind = .command) :
    Yields (Changes ctx s) (Faults s.cursor) (s.takeUnknownCommand i) := by
  -- The command is reported, then it is text, and then the braces behind it are opened.
  let t := s.cursor.current
  have hne : t.kind ≠ .endOfFile := by simp [t, hk]
  have hwarn : Changes ctx s (s.warnAt (.unknownCommand t.text) t) :=
    .single (.warn _ (by simp [Degradation.category]))
  have hgather : Change ctx (s.warnAt (.unknownCommand t.text) t)
      ((s.warnAt (.unknownCommand t.text) t).gather i s.cursor.advance
        (i.run.fragments.pushText t.start t.stop (0x5C :: t.text))) :=
    Change.gather (s := s.warnAt (.unknownCommand t.text) t) hi hne (.text _)
  exact yields_openKeptBraces.mono (fun _ h => (hwarn.tail hgather).trans h)
    fun _ => .of_reaches (.advance _)

/-- A styled command and the first argument of a link are opened after their owner. -/
theorem yields_takeArgument {from' : Cursor} {flaw : Flaw} {purpose : Purpose}
    (hi : s.inline? = some i) (hk : s.cursor.current.kind = .command)
    (ho : Faults s.cursor ⟨flaw, s.cursor.marker⟩) (hp : ∀ m ∈ purpose.command?, m = s.cursor.marker)
    (hc : s.cursor.advance.Reaches from')
    (hu : ∀ m url, purpose = .linkText m url → s.cursor.current.isCommand "href" = true ∧
      ∃ flaw t d, readGroup ctx.source s.cursor.marker flaw s.cursor.advance = .ok (t, d) ∧
        url = t.trim) :
    Yields (Changes ctx s) (Faults s.cursor)
      (openArgument { s with cursor := from' } i s.cursor.marker flaw purpose) := by
  refine (yields_openArgument ho ((Reaches.advance _).trans hc)).mono ?_ fun _ => id
  rintro next ⟨hd, opened, hopened, hgroup, rfl⟩
  exact .single (.openArgument hi hk (.inl rfl) hp (hc.trans hopened) hgroup hu hd)

theorem yields_takeLink (hi : s.inline? = some i) (hk : s.cursor.current.kind = .command)
    (hname : s.cursor.current.text = "href") :
    Yields (Changes ctx s) (Faults s.cursor) (s.takeLink ctx i) := by
  have hcommand : s.cursor.current.isCommand "href" = true := by simp [Token.isCommand, hk, hname]
  have hfault : Faults s.cursor ⟨.malformedLink s.cursor.marker.text, s.cursor.marker⟩ :=
    .current (.malformedLink hcommand)
  -- The first group is the destination, the second is read as an argument.
  refine (yields_readGroup hfault (.advance _)).bind fun r hread hr => ?_
  refine yields_takeArgument hi hk hfault (by simp [Purpose.command?]) hr fun m url hurl => ?_
  cases hurl
  exact ⟨hcommand, _, _, _, hread, rfl⟩

theorem yields_takeUrl (hi : s.inline? = some i) (hk : s.cursor.current.kind = .command)
    (hname : s.cursor.current.text = "url") :
    Yields (Changes ctx s) (Faults s.cursor) (s.takeUrl ctx i) := by
  have hfault : Faults s.cursor ⟨missingArgument s.cursor.marker, s.cursor.marker⟩ :=
    .current (.missingArgument (.inl hk))
  refine (yields_readGroup hfault (.advance _)).bind fun r hread _ => ?_
  exact .single (.gather hi (by simp [hk]) (.url (by simp [Token.isCommand, hk, hname]) hread))

theorem yields_takeVerbatim (hi : s.inline? = some i) (hk : s.cursor.current.kind = .command) :
    Yields (Changes ctx s) (Faults s.cursor) (s.takeVerbatim i) := by
  simp only [takeVerbatim]
  split
  · next hraw => exact .single (.gather hi (by simp [hk]) (.verbatim hk hraw))
  · exact .current (.missingArgument (.inl hk))

theorem yields_dropCommand {count : Nat} (hi : s.inline? = some i)
    (hk : s.cursor.current.kind = .command) :
    Yields (Changes ctx s) (Faults s.cursor) (s.dropCommand ctx i count) := by
  refine (yields_skipCommand hk).bind fun d _ hd => ?_
  exact .single (.gather hi (by simp [hk]) (.dropped hd))

theorem yields_takeCommand (hi : s.inline? = some i) (hk : s.cursor.current.kind = .command) :
    Yields (Changes ctx s) (Faults s.cursor) (s.takeCommand ctx i) := by
  simp only [takeCommand]
  split
  · next hl => exact .current (.nestedHeading hk hl)
  split
  · exact yields_dropCommand hi hk
  · exact yields_takeArgument hi hk (.current (.missingArgument (.inl hk)))
      (by simp [Purpose.command?]) (.refl _) (by simp)
  split
  · exact .single (.gather hi (by simp [hk]) (.hardBreak (.refl _)))
  split
  · next hname => exact yields_takeLink hi hk hname
  split
  · next hname => exact yields_takeUrl hi hk hname
  split
  · exact yields_takeVerbatim hi hk
  · exact yields_takeUnknownCommand hi hk

/-! ## Tokens -/

theorem changes_takeComment (hi : s.inline? = some i) (hk : s.cursor.current.kind = .comment) :
    Changes ctx s (s.takeComment i) := by
  have hne : s.cursor.current.kind ≠ .endOfFile := by simp [hk]
  simp only [takeComment]
  split
  · exact .single (.gather hi hne (.dropped (.refl _)))
  split
  · next hnext => exact .single (.gather hi hne (.comment _ hnext.1))
  · exact .single (.gather hi hne (.text _))

theorem changes_takeLineBreak (hi : s.inline? = some i)
    (hk : s.cursor.current.kind = .lineBreak) : Changes ctx s (s.takeLineBreak i) := by
  refine .single (.gather hi (by simp [hk]) (.hardBreak ?_))
  split
  · exact reaches_skipOptionalArgument _
  · exact .refl _

theorem changes_takeLiteral (hi : s.inline? = some i)
    (hk : s.cursor.current.kind ≠ .endOfFile) : Changes ctx s (s.takeLiteral ctx i) :=
  .single (.gather hi hk (.text _))

theorem changes_takeText (hi : s.inline? = some i) (hk : s.cursor.current.kind ≠ .endOfFile) :
    Changes ctx s (s.takeText i) := by
  simp only [takeText]
  split
  · refine .head (.warn (.malformedEscape s.cursor.current.text) (by simp [Degradation.category]))
      (.single ?_)
    exact Change.gather (s := s.warnAt _ s.cursor.current) hi hk (.text _)
  · exact .single (.gather hi hk (.text _))

theorem yields_takeMath (hi : s.inline? = some i)
    (hk : s.cursor.current.kind = .mathInline ∨ s.cursor.current.kind = .mathDisplay) :
    Yields (Changes ctx s) (Faults s.cursor) (s.takeMath ctx i) := by
  have hne : s.cursor.current.kind ≠ .endOfFile := by rcases hk with h | h <;> simp [h]
  simp only [takeMath]
  split
  · exact changes_takeLiteral hi hne
  · next hopens =>
    refine (yields_readInlineMath hk).bind fun r hr htext => ?_
    -- Formulas are pushed one by one, which is what gathering does with content that is no text.
    show Changes ctx s (s.gather i r.2 (r.1.foldl Fragments.push i.run.fragments))
    rw [foldl_push _ htext]
    exact .single (.gather hi hne (.math hr hk hopens))

/-- Reading a token of inline content that ends neither a document nor an environment. -/
theorem yields_takeToken (hi : s.inline? = some i) (heof : s.cursor.current.kind ≠ .endOfFile)
    (hend : s.cursor.current.kind ≠ .envEnd) :
    Yields (Changes ctx s) (Faults s.cursor) (s.takeToken ctx i) := by
  unfold takeToken
  cases hk : s.cursor.current.kind <;> simp only [Cursor.marker, hk]
  case endOfFile => exact absurd hk heof
  case envEnd => exact absurd hk hend
  case envBegin => exact .current (.nestedEnvironment hk)
  case groupClose => exact .current (.unexpectedGroupClose hk)
  case text | rawText => exact changes_takeText hi heof
  case newLine => exact .single (.gather hi heof (.text _))
  case comment => exact changes_takeComment hi hk
  case lineBreak => exact changes_takeLineBreak hi hk
  case groupOpen => exact yields_openBrace false hi hk
  case mathInline => exact yields_takeMath hi (.inl hk)
  case mathDisplay => exact yields_takeMath hi (.inr hk)
  case command => exact yields_takeCommand hi hk
  all_goals exact changes_takeLiteral hi heof

end State

end LatexMarkdown.Parse
