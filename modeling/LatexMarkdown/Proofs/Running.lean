import LatexMarkdown.Conversion
import Mathlib.Data.List.TakeWhile
/-!
  Runs of the reader, step by step.

  `State.outcome` is what a run comes to: blocks and diagnostics, or a failure.  `State.Leads` says
  of two states that runs from them come to the same; it holds along a step, along spacing between
  blocks, and is transitive, so a run over a known token list is a chain of small facts.  At the
  end, `Document.parse_eq` turns an outcome into a parsed document.
-/
namespace LatexMarkdown

theorem Token.kind_ne_endOfFile_of_isArgumentSpacing {P : Type} {t : Token P}
    (h : t.isArgumentSpacing = true) : t.kind ≠ .endOfFile :=
  kind_ne_endOfFile_of_isSpacing (isSpacing_of_isArgumentSpacing h)

theorem Token.kind_of_isCommand {P : Type} {name : Text} {t : Token P}
    (h : t.isCommand name = true) : t.kind = .command := by
  rw [isCommand, Bool.and_eq_true, beq_iff_eq] at h
  exact h.1

namespace Cursor

variable {P : Type} {c : Cursor P} {t : Token P} {ts : List (Token P)}

/-- The cursor behind tokens that stand ahead of it, with the rest of the list before it. -/
def past (c : Cursor P) (tokens rest : List (Token P)) : Cursor P :=
  { c with passed := tokens.reverse ++ c.passed, ahead := rest, index := c.index + tokens.length }

/-- Past tokens of the list. -/
theorem advanceBy_length {rest : List (Token P)} (h : c.ahead = ts ++ rest)
    (hk : ∀ t ∈ ts, t.kind ≠ .endOfFile) : c.advanceBy ts.length = c.past ts rest := by
  induction ts generalizing c with
  | nil => simp [past, ← (List.nil_append rest ▸ h : c.ahead = rest)]
  | cons t ts ih =>
    have hadvance := advance_of_ahead h (hk t List.mem_cons_self)
    rw [List.length_cons, advanceBy_succ, hadvance,
      ih rfl fun u hu => hk u (List.mem_cons_of_mem t hu)]
    simp [past, Nat.add_assoc, Nat.add_comm 1]

theorem Reaches.ahead_suffix {c d : Cursor P} (h : c.Reaches d) : d.ahead <:+ c.ahead := by
  obtain ⟨n, rfl⟩ := h
  induction n generalizing c with
  | zero => exact List.suffix_refl _
  | succ n ih =>
    rw [Cursor.advanceBy_succ]
    refine ih.trans ?_
    unfold Cursor.advance
    split
    · exact List.suffix_refl _
    · exact List.tail_suffix _

/-- The tokens from the current one on, the last one of the list included. -/
def remaining (c : Cursor P) : List (Token P) := c.ahead ++ [c.final]

theorem ahead_of_remaining (h : c.remaining = t :: ts) (hts : ts ≠ []) :
    ∃ rest, c.ahead = t :: rest ∧ rest ++ [c.final] = ts := by
  cases ha : c.ahead with
  | nil =>
    rw [remaining, ha] at h
    exact absurd (List.cons.inj h).2.symm hts
  | cons t' rest =>
    rw [remaining, ha, List.cons_append] at h
    obtain ⟨rfl, hrest⟩ := List.cons.inj h
    exact ⟨rest, rfl, hrest⟩

theorem current_of_remaining (h : c.remaining = t :: ts) : c.current = t := by
  cases ha : c.ahead with
  | nil =>
    rw [remaining, ha] at h
    rw [current_of_ahead_nil ha]
    exact (List.cons.inj h).1
  | cons t' rest =>
    rw [remaining, ha, List.cons_append] at h
    rw [current_of_ahead ha]
    exact (List.cons.inj h).1

theorem remaining_advance (h : c.remaining = t :: ts) (hts : ts ≠ []) (hk : t.kind ≠ .endOfFile) :
    c.advance.remaining = ts := by
  obtain ⟨rest, ha, hrest⟩ := ahead_of_remaining h hts
  rw [remaining, ahead_advance ha hk, final_advance, hrest]

theorem remaining_ofTokens [OfNat P 0] (h : ts ≠ []) : (ofTokens ts).remaining = ts := by
  rw [remaining, ofTokens, List.getLast?_eq_some_getLast h]
  exact List.dropLast_concat_getLast h

theorem lookahead_mem_remaining (c : Cursor P) (n : Nat) : c.lookahead n ∈ c.remaining := by
  rw [lookahead, remaining, List.mem_append]
  cases h : c.ahead[n]? with
  | none => exact .inr (by simp)
  | some t => exact .inl (List.mem_of_getElem? h)

theorem Terminated.advance (h : c.Terminated) : c.advance.Terminated :=
  (Reaches.advance c).terminated h

/-- The current token stands in the list or ends it. -/
theorem ahead_eq_cons (h : c.Terminated) (hk : c.current.kind ≠ .endOfFile) :
    c.ahead = c.current :: c.ahead.tail := by
  obtain ⟨t, ts, heq⟩ := List.exists_cons_of_ne_nil (ahead_ne_nil h hk)
  rw [current_of_ahead heq, heq, List.tail_cons]

/-- What remains is the current token and what remains behind it. -/
theorem remaining_eq_cons (h : c.Terminated) (hk : c.current.kind ≠ .endOfFile) :
    c.remaining = c.current :: c.advance.remaining := by
  have hr : c.remaining = c.current :: (c.ahead.tail ++ [c.final]) := by
    rw [remaining, ahead_eq_cons h hk, List.cons_append, List.tail_cons]
  rw [hr, remaining_advance hr (by simp) hk]

/-- At the end of the list there is no way on. -/
theorem advance_of_endOfFile (hk : c.current.kind = .endOfFile) : c.advance = c := if_pos hk

theorem ahead_advanceBy (hk : ∀ t ∈ c.ahead, t.kind ≠ .endOfFile) (hc : c.Terminated) (n : Nat) :
    (c.advanceBy n).ahead = c.ahead.drop n := by
  induction n generalizing c with
  | zero => rfl
  | succ n ih =>
    rw [advanceBy_succ]
    cases ha : c.ahead with
    | nil =>
      have hend : c.current.kind = .endOfFile := by
        rw [current_of_ahead_nil ha]
        exact hc
      rw [advance_of_endOfFile hend, ih hk hc, ha, List.drop_nil, List.drop_nil]
    | cons t rest =>
      have hadvance := ahead_advance ha (hk t (by simp [ha]))
      rw [ih (fun u hu => hk u (by rw [ha]; exact .tail t (hadvance ▸ hu))) hc.advance, hadvance,
        List.drop_succ_cons]

/-- Skipping leaves what follows the tokens skipped. -/
theorem ahead_skipWhile {p : Token → Bool} (hp : ∀ t, p t = true → t.kind ≠ .endOfFile)
    (c : Cursor) : (c.advanceBy (c.countWhile p)).ahead = c.ahead.dropWhile p := by
  induction hn : c.ahead.length generalizing c with
  | zero => simp [countWhile, List.length_eq_zero_iff.mp hn]
  | succ n ih =>
    obtain ⟨t, rest, ha⟩ := List.exists_cons_of_length_eq_add_one hn
    cases ht : p t with
    | false => simp [countWhile, ha, ht]
    | true =>
      have hadvance := ahead_advance ha (hp t ht)
      rw [skipWhile_of_pos ha ht (hp t ht), ih c.advance (by simpa [hadvance, ha] using hn), hadvance,
        ha, List.dropWhile_cons, if_pos ht]

/-- Skipping what comes before an argument leads to its opening token. -/
theorem current_advanceBy_countWhile {p : Token → Bool}
    (hp : ∀ t, p t = true → t.kind ≠ .endOfFile) (c : Cursor) :
    (c.advanceBy (c.countWhile p)).current = c.lookahead (c.countWhile p) := by
  have hfinal : (c.advanceBy (c.countWhile p)).final = c.final :=
    (Reaches.advanceBy c _).final_eq
  rw [current, ahead_skipWhile hp, hfinal, lookahead, countWhile]
  congr 1
  induction c.ahead with
  | nil => rfl
  | cons t rest ih =>
    rw [List.dropWhile_cons, List.takeWhile_cons]
    split
    · rw [ih, List.length_cons, List.getElem?_cons_succ]
    · rfl

end Cursor

namespace Parse

/-- Without an opening bracket there is no optional argument. -/
theorem skipOptionalArgument_of_forall {c : Cursor}
    (h : ∀ t ∈ c.remaining, t.kind ≠ .bracketOpen) : skipOptionalArgument c = c := by
  have hnone : startArgument? .bracketOpen c = none :=
    if_neg (h _ (c.lookahead_mem_remaining _))
  rw [skipOptionalArgument, hnone]

/-- An argument may begin at the current token. -/
theorem startArgument?_of_current {c : Cursor} (kind : TokenKind)
    (hs : c.current.isArgumentSpacing = false) :
    startArgument? kind c = if c.current.kind = kind then some c else none := by
  rw [startArgument?, Cursor.countWhile_of_neg hs, Cursor.lookahead_zero, Cursor.advanceBy_zero]

/-- Spacing before an argument is passed. -/
theorem startArgument?_advance {c : Cursor} {t : Token} {rest : List Token} (kind : TokenKind)
    (h : c.ahead = t :: rest) (hs : t.isArgumentSpacing = true) :
    startArgument? kind c = startArgument? kind c.advance := by
  have hk (u : Token) : u.isArgumentSpacing = true → u.kind ≠ .endOfFile :=
    Token.kind_ne_endOfFile_of_isArgumentSpacing
  simp only [startArgument?, ← Cursor.current_advanceBy_countWhile hk,
    Cursor.skipWhile_of_pos h hs (hk t hs)]

/-- An argument begins at the first token behind the spacing, or not at all. -/
theorem startArgument?_of_spacing {c : Cursor} {t : Token} {spacing rest : List Token}
    (kind : TokenKind) (h : c.ahead = spacing ++ t :: rest) (hs : ∀ u ∈ spacing, u.isArgumentSpacing = true)
    (ht : t.isArgumentSpacing = false) :
    startArgument? kind c =
      if t.kind = kind then some (c.past spacing (t :: rest)) else none := by
  have hcount : c.countWhile Token.isArgumentSpacing = spacing.length := by
    rw [Cursor.countWhile, h, List.takeWhile_append_of_pos hs]
    simp [ht]
  have hahead : c.lookahead spacing.length = t := by simp [Cursor.lookahead, h]
  have hpast : c.advanceBy spacing.length = c.past spacing (t :: rest) :=
    Cursor.advanceBy_length h fun u hu => Token.kind_ne_endOfFile_of_isArgumentSpacing (hs u hu)
  rw [startArgument?, hcount, hahead, hpast]

/-- Where nothing but spacing stands ahead, only the last token may begin an argument. -/
theorem startArgument?_of_forall_isArgumentSpacing {c : Cursor} (kind : TokenKind)
    (h : ∀ t ∈ c.ahead, t.isArgumentSpacing = true) :
    startArgument? kind c = if c.final.kind = kind then some (c.past c.ahead []) else none := by
  have hcount : c.countWhile Token.isArgumentSpacing = c.ahead.length := by
    rw [Cursor.countWhile, List.takeWhile_eq_self_iff.mpr h]
  have hpast : c.advanceBy c.ahead.length = c.past c.ahead [] :=
    Cursor.advanceBy_length (List.append_nil _).symm fun t ht =>
      Token.kind_ne_endOfFile_of_isArgumentSpacing (h t ht)
  rw [startArgument?, hcount, hpast, Cursor.lookahead, List.getElem?_eq_none (Nat.le_refl _),
    Option.getD_none]

/-- Spacing goes up to a token that is none, or as far as the list does. -/
theorem argumentSpacing_cases (c : Cursor) :
    (∀ t ∈ c.ahead, t.isArgumentSpacing = true) ∨
      ∃ spacing t rest, c.ahead = spacing ++ t :: rest ∧ (∀ u ∈ spacing, u.isArgumentSpacing = true) ∧
        t.isArgumentSpacing = false := by
  have hsplit := (c.ahead.takeWhile_append_dropWhile (p := Token.isArgumentSpacing)).symm
  cases hdrop : c.ahead.dropWhile Token.isArgumentSpacing with
  | nil => exact .inl (List.dropWhile_eq_nil_iff.mp hdrop)
  | cons t rest =>
    have hstop := List.head?_dropWhile_not Token.isArgumentSpacing c.ahead
    rw [hdrop] at hsplit hstop
    exact .inr ⟨_, t, rest, hsplit, fun u hu => List.mem_takeWhile_imp hu, by simpa using hstop⟩

/-- The cursor that an argument is found at stands at its opening token. -/
theorem kind_of_startArgument? {kind : TokenKind} {c opened : Cursor}
    (h : startArgument? kind c = some opened) : opened.current.kind = kind := by
  simp only [startArgument?] at h
  split at h
  · next hk =>
    rw [← Option.some.inj h, Cursor.current_advanceBy_countWhile fun _ =>
      Token.kind_ne_endOfFile_of_isArgumentSpacing]
    exact hk
  · exact absurd h (by simp)

theorem kind_of_startGroup {owner : Marker} {flaw : Flaw} {c opened : Cursor}
    (h : startGroup owner flaw c = .ok opened) : opened.current.kind = .groupOpen := by
  unfold startGroup at h
  split at h
  · next hs => exact Except.ok.inj h ▸ kind_of_startArgument? hs
  · exact absurd h (by simp)

/-- An argument in braces may begin at an opening brace. -/
theorem startGroup_of_groupOpen {c : Cursor} (hk : c.current.kind = .groupOpen) (owner : Marker)
    (flaw : Flaw) : startGroup owner flaw c = .ok c := by
  have hspacing : c.current.isArgumentSpacing = false := by
    simp [Token.isArgumentSpacing, Token.isBlankText, hk]
  rw [startGroup, startArgument?_of_current _ hspacing, if_pos hk]

/-- Outside paragraphs a line break and the begin of an environment end nothing. -/
theorem Surround.endsAt_of_ne_paragraph {surround : Surround} {t : Token}
    (hp : surround ≠ .paragraph) (hk : t.kind = .newLine ∨ t.kind = .envBegin) (inList : Bool) :
    surround.endsAt inList t = false := by
  cases surround with
  | paragraph => exact absurd rfl hp
  | group opener | label opener | cell => rcases hk with hk | hk <;> simp [endsAt, hk]

/-- The content of an item with its label in front. -/
def labelled (label content : List Inline) : List Inline :=
  match label.head?, label.getLast? with
  | some first, some last =>
    let strong := Inline.strong { start := first.info.start, stop := last.info.stop } label
    if content.isEmpty then [strong]
    else strong :: .text { start := last.info.stop, stop := last.info.stop } [0x20] :: content
  | _, _ => content

/-- A label stands in front of the content of its item, a space between the two. -/
theorem exists_labelled_eq {label : List Inline} (hne : label ≠ []) (content : List Inline) :
    ∃ start stop place, labelled label content = .strong (.span start stop) label ::
      (if content.isEmpty then [] else .text (.span place place) [0x20] :: content) := by
  obtain ⟨first, rest, rfl⟩ := List.exists_cons_of_ne_nil hne
  have hlast := List.getLast?_eq_some_getLast hne
  generalize (first :: rest).getLast hne = last at hlast
  refine ⟨first.info.start, last.info.stop, last.info.stop, ?_⟩
  simp only [labelled, List.head?_cons, hlast]
  split <;> rfl

namespace State

variable {ctx : Context} {s t u : State} {i : OpenInline}

/-- What a run comes to: the blocks and diagnostics, the last one first, or a failure. -/
def outcome (ctx : Context) (s : State) (h : s.cursor.Terminated) :
    Except Failure (List Block × List Diagnostic) :=
  (State.run ctx s h).map fun s => (s.blocks, s.diagnostics)

theorem outcome_of_error (h : s.cursor.Terminated) {failure : Failure}
    (hs : s.step ctx = .error failure) : s.outcome ctx h = .error failure := by
  rw [outcome, State.run]
  split
  · next heq => rw [hs] at heq; cases heq; rfl
  · next heq => rw [hs] at heq; cases heq
  · next heq => rw [hs] at heq; cases heq

theorem outcome_of_none (h : s.cursor.Terminated) (hs : s.step ctx = .ok none) :
    s.outcome ctx h = .ok (s.blocks, s.diagnostics) := by
  rw [outcome, State.run]
  split
  · next heq => rw [hs] at heq; cases heq
  · rfl
  · next heq => rw [hs] at heq; cases heq

theorem outcome_of_some (h : s.cursor.Terminated) (hs : s.step ctx = .ok (some t)) :
    s.outcome ctx h = t.outcome ctx ((step_progress h hs).terminated h) := by
  rw [outcome, State.run]
  split
  · next heq => rw [hs] at heq; cases heq
  · next heq => rw [hs] at heq; cases heq
  · next heq =>
    rw [hs] at heq
    cases heq
    rfl

/-- Runs from the two states come to the same. -/
def Leads (ctx : Context) (s t : State) : Prop :=
  ∀ h : s.cursor.Terminated, ∃ h' : t.cursor.Terminated, s.outcome ctx h = t.outcome ctx h'

theorem Leads.refl (s : State) : Leads ctx s s := fun h => ⟨h, rfl⟩

theorem Leads.trans (hst : Leads ctx s t) (htu : Leads ctx t u) : Leads ctx s u := by
  intro h
  obtain ⟨h', heq⟩ := hst h
  obtain ⟨h'', heq'⟩ := htu h'
  exact ⟨h'', heq.trans heq'⟩

theorem Leads.of_step (h : s.step ctx = .ok (some t)) : Leads ctx s t :=
  fun hs => ⟨_, outcome_of_some hs h⟩

/-- Two states that step alike and hold the same lead to one another. -/
theorem Leads.of_step_eq (hstep : s.step ctx = t.step ctx) (hb : s.blocks = t.blocks)
    (hd : s.diagnostics = t.diagnostics) (ht : s.cursor.Terminated → t.cursor.Terminated) :
    Leads ctx s t := by
  intro h
  refine ⟨ht h, ?_⟩
  cases hs : s.step ctx with
  | error failure =>
    rw [outcome_of_error h hs, outcome_of_error (ht h) (hstep ▸ hs)]
  | ok next? =>
    cases next? with
    | none => rw [outcome_of_none h hs, outcome_of_none (ht h) (hstep ▸ hs), hb, hd]
    | some next => rw [outcome_of_some h hs, outcome_of_some (ht h) (hstep ▸ hs)]

/-- Between blocks, spacing is passed. -/
theorem Leads.of_isSpacing {tok : Token} {rest : List Token} (hi : s.inline? = none)
    (ha : s.cursor.ahead = tok :: rest) (hs : tok.isSpacing = true) :
    Leads ctx s { s with cursor := s.cursor.advance } := by
  refine .of_step_eq ?_ rfl rfl fun h => h.advance
  simp only [step, hi, takeBlock, Cursor.skipSpacing_of_isSpacing ha hs]

/-- Between blocks, all spacing is passed. -/
theorem Leads.skipSpacing (hi : s.inline? = none) :
    Leads ctx s { s with cursor := s.cursor.skipSpacing } := by
  intro h
  induction hn : s.cursor.ahead.length generalizing s with
  | zero =>
    rw [Cursor.skipSpacing_of_ahead_nil (List.length_eq_zero_iff.mp hn)]
    exact ⟨h, rfl⟩
  | succ n ih =>
    cases ha : s.cursor.ahead with
    | nil => simp [ha] at hn
    | cons tok rest =>
      cases hs : tok.isSpacing with
      | false =>
        rw [Cursor.skipSpacing_of_not_isSpacing ha hs]
        exact ⟨h, rfl⟩
      | true =>
        have hk := Token.kind_ne_endOfFile_of_isSpacing hs
        rw [Cursor.skipSpacing_of_isSpacing ha hs]
        have hlead : Leads ctx s { s with cursor := s.cursor.advance } := .of_isSpacing hi ha hs
        obtain ⟨h', heq⟩ := hlead h
        obtain ⟨h'', heq'⟩ := ih (s := { s with cursor := s.cursor.advance }) hi h'
          (by simpa [Cursor.ahead_advance ha hk, ha] using hn)
        exact ⟨h'', heq.trans heq'⟩

/-! ## Depth -/

theorem checkDepth_of_lt {depth : Nat} (h : nestingLimit < depth + 1) (marker : Marker) :
    checkDepth depth marker = .error ⟨.nestingTooDeep nestingLimit, marker⟩ :=
  if_pos h

theorem checkDepth_of_le {depth : Nat} (h : depth + 1 ≤ nestingLimit) (marker : Marker) :
    checkDepth depth marker = .ok () :=
  if_neg (Nat.not_lt.mpr h)

/-- A brace opened inside a group is one more brace of the run. -/
theorem openBrace_of_le (h : s.depth + 1 ≤ nestingLimit) (i : OpenInline) :
    s.openBrace i false = .ok { s with
      cursor := s.cursor.advance
      inline? := some { i with run :=
        { i.run with braces := ⟨s.cursor.marker, false⟩ :: i.run.braces } } } := by
  rw [openBrace, checkDepth_of_le h]
  rfl

theorem openBrace_of_lt (h : nestingLimit < s.depth + 1) (i : OpenInline) :
    s.openBrace i false = .error ⟨.nestingTooDeep nestingLimit, s.cursor.marker⟩ := by
  rw [openBrace, checkDepth_of_lt h]
  rfl

/-- An argument that is inline content is opened at its brace. -/
theorem openArgument_of_le (hk : s.cursor.current.kind = .groupOpen)
    (h : s.depth + 1 ≤ nestingLimit) (i : OpenInline) (owner : Marker) (flaw : Flaw)
    (purpose : Purpose) :
    s.openArgument i owner flaw purpose = .ok { s with
      cursor := s.cursor.advance
      inline? := some { i with
        run := {}
        arguments := ⟨purpose, s.cursor.marker, i.run⟩ :: i.arguments } } := by
  rw [openArgument, startGroup_of_groupOpen hk]
  show (do checkDepth s.depth s.cursor.marker; _) = _
  rw [checkDepth_of_le h]
  rfl

/-! ## One step -/

/-- Between blocks, at a token that is no spacing. -/
theorem step_of_inline?_none (hi : s.inline? = none) (hs : s.cursor.current.isSpacing = false) :
    s.step ctx =
      match s.cursor.current.kind with
      | .endOfFile => (fun _ => none) <$> endDocument s
      | .envEnd => some <$> endEnvironment s
      | _ => some <$> beginBlock ctx s := by
  have heq : ({ s with cursor := s.cursor.skipSpacing } : State) = s := by
    rw [Cursor.skipSpacing_eq_self hs]
  unfold step
  rw [hi]
  show takeBlock ctx s = _
  exact congrArg (fun s : State => match s.cursor.current.kind with
    | .endOfFile => (fun _ => none) <$> endDocument s
    | .envEnd => some <$> endEnvironment s
    | _ => some <$> beginBlock ctx s) heq

theorem step_of_envBegin (hi : s.inline? = none) (hk : s.cursor.current.kind = .envBegin) :
    s.step ctx = some <$> s.beginEnvironment ctx := by
  rw [step_of_inline?_none hi (by simp [Token.isSpacing, Token.isBlankText, hk])]
  simp only [hk, beginBlock]

theorem step_of_envEnd (hi : s.inline? = none) (hk : s.cursor.current.kind = .envEnd) :
    s.step ctx = some <$> s.endEnvironment := by
  rw [step_of_inline?_none hi (by simp [Token.isSpacing, Token.isBlankText, hk]), hk]

theorem step_of_endOfFile (hi : s.inline? = none) (hk : s.cursor.current.kind = .endOfFile) :
    s.step ctx = (fun _ => none) <$> s.endDocument := by
  rw [step_of_inline?_none hi (by simp [Token.isSpacing, Token.isBlankText, hk]), hk]

/-- At the end, with nothing open, a run is over. -/
theorem outcome_of_endOfFile (hi : s.inline? = none) (he : s.environments = [])
    (hk : s.cursor.current.kind = .endOfFile) (h : s.cursor.Terminated) :
    s.outcome ctx h = .ok (s.blocks, s.diagnostics) := by
  refine outcome_of_none h ?_
  rw [step_of_endOfFile hi hk, endDocument, he]
  rfl

/-- In inline content, at a token that does not end it. -/
theorem step_of_not_endsAt (hi : s.inline? = some i)
    (he : i.surround.endsAt s.inList s.cursor.current = false) :
    s.step ctx = some <$> s.takeToken ctx i := by
  simp only [step, hi, takeInline, he]
  rfl

/-- In inline content, at a token that ends it. -/
theorem step_of_endsAt (hi : s.inline? = some i)
    (he : i.surround.endsAt s.inList s.cursor.current = true) :
    s.step ctx = some <$> s.closeInline ctx i := by
  simp only [step, hi, takeInline, he, if_true]

theorem Leads.of_takeToken (hi : s.inline? = some i)
    (he : i.surround.endsAt s.inList s.cursor.current = false)
    (ht : s.takeToken ctx i = .ok t) : Leads ctx s t :=
  .of_step (by rw [step_of_not_endsAt hi he, ht]; rfl)

theorem Leads.of_closeInline (hi : s.inline? = some i)
    (he : i.surround.endsAt s.inList s.cursor.current = true)
    (ht : s.closeInline ctx i = .ok t) : Leads ctx s t :=
  .of_step (by rw [step_of_endsAt hi he, ht]; rfl)

/-- A command that is no item marker is read like any other. -/
theorem takeBlockCommand_of_ne_item (h : s.cursor.current.text ≠ "item") :
    s.takeBlockCommand ctx = s.takeOtherCommand ctx := by
  unfold takeBlockCommand
  split
  · rw [if_neg h]
  · rfl

/-! ## Paragraphs -/

/-- The state with a line of inline content open, what was gathered in it, and the cursor moved. -/
def inLine (s : State) (line : Line) (c : Cursor) (f : Fragments) : State :=
  { s with cursor := c, inline? := some { line, run := { fragments := f } } }

/-- A token that begins a paragraph is read inside it. -/
theorem Leads.of_paragraph_start (hi : s.inline? = none) (hs : s.cursor.current.isSpacing = false)
    (he : Surround.endsAt s.inList s.cursor.current .paragraph = false)
    (hb : s.beginBlock ctx = s.beginParagraph ctx) :
    Leads ctx s (s.inLine (.paragraph s.cursor.current.start) s.cursor {}) := by
  have hinside : (s.inLine (.paragraph s.cursor.current.start) s.cursor {}).step ctx
      = some <$> s.beginParagraph ctx := rfl
  have hbetween : s.step ctx = some <$> s.beginParagraph ctx := by
    rw [step_of_inline?_none hi hs, hb]
    -- The token ends neither the document nor an environment.
    cases hk : s.cursor.current.kind <;> simp [Surround.endsAt, hk] at he ⊢
  exact .of_step_eq (hbetween.trans hinside.symm) rfl rfl id

/-- Text is added to what was gathered. -/
theorem Leads.of_text (hi : s.inline? = some i) (hk : s.cursor.current.kind = .text)
    (hm : s.cursor.current.flags.malformed = false) :
    Leads ctx s (s.gather i s.cursor.advance (i.run.fragments.pushText s.cursor.current.start
      s.cursor.current.stop s.cursor.current.text)) := by
  have he : i.surround.endsAt s.inList s.cursor.current = false := by
    cases i.surround <;> simp [Surround.endsAt, hk]
  refine .of_takeToken hi he ?_
  have htext : s.takeText i = s.gather i s.cursor.advance (i.run.fragments.pushText
      s.cursor.current.start s.cursor.current.stop s.cursor.current.text) := by
    simp only [takeText, hm]
    rfl
  simp only [takeToken, Cursor.marker, hk, htext]

/-- A line break that ends nothing is a space. -/
theorem Leads.of_newLine (hi : s.inline? = some i) (hk : s.cursor.current.kind = .newLine)
    (he : i.surround.endsAt s.inList s.cursor.current = false) :
    Leads ctx s (s.gather i s.cursor.advance (i.run.fragments.pushText s.cursor.current.start
      s.cursor.current.stop [0x20])) := by
  refine .of_takeToken hi he ?_
  simp only [takeToken, Cursor.marker, hk]
  rfl

section Line

variable {line : Line} {c : Cursor} {f : Fragments}

theorem Leads.text_inLine (hk : c.current.kind = .text)
    (hm : c.current.flags.malformed = false) :
    Leads ctx (s.inLine line c f) (s.inLine line c.advance
      (f.pushText c.current.start c.current.stop c.current.text)) :=
  .of_text (s := s.inLine line c f) rfl hk hm

theorem Leads.newLine_inLine (hk : c.current.kind = .newLine)
    (he : Surround.endsAt s.inList c.current
      { line, run := { fragments := f } : OpenInline }.surround = false) :
    Leads ctx (s.inLine line c f) (s.inLine line c.advance
      (f.pushText c.current.start c.current.stop [0x20])) :=
  .of_newLine (s := s.inLine line c f) rfl hk he

end Line

/-- The state with the cursor moved and blocks added, the last one first. -/
def past (s : State) (c : Cursor) (blocks : List Block) : State :=
  ({ s with cursor := c } : State).addBlocks blocks

@[simp] theorem cursor_past (s : State) (c : Cursor) (blocks : List Block) :
    (s.past c blocks).cursor = c := by
  rw [past, cursor_addBlocks]

@[simp] theorem inline?_past (s : State) (c : Cursor) (blocks : List Block) :
    (s.past c blocks).inline? = s.inline? := by
  rw [past, inline?_addBlocks]

theorem past_nil (s : State) (c : Cursor) : s.past c [] = { s with cursor := c } := by
  unfold past addBlocks
  split
  · rfl
  · next heq => simp only [List.nil_append, ← heq]

/-- Outside all environments the blocks are added to those of the document. -/
theorem past_of_environments_nil (he : s.environments = []) (c : Cursor) (blocks : List Block) :
    s.past c blocks = { s with cursor := c, blocks := blocks ++ s.blocks } := by
  simp only [past, addBlocks, he]

theorem past_past (s : State) (c c' : Cursor) (blocks blocks' : List Block) :
    (s.past c blocks).past c' blocks' = s.past c' (blocks' ++ blocks) := by
  unfold past addBlocks
  cases s.environments <;> simp

@[simp] theorem depth_past (s : State) (c : Cursor) (blocks : List Block) :
    (s.past c blocks).depth = s.depth := by
  unfold past addBlocks depth
  cases s.environments <;> simp

/-- A paragraph is closed where it ends, and added as a block when it has content. -/
theorem Leads.of_paragraph_end {start : Nat} {c : Cursor} {f : Fragments} (hi : s.inline? = none)
    (he : Surround.endsAt s.inList c.current .paragraph = true) :
    Leads ctx (s.inLine (.paragraph start) c f) (s.past c
      (if f.finish.isEmpty then [] else [.paragraph (.span start c.lastStop) f.finish])) := by
  have hnone : ({ s with cursor := c, inline? := none } : State) = { s with cursor := c } := by
    rw [← hi]
  have hclose : (s.inLine (.paragraph start) c f).closeInline ctx
      { line := .paragraph start, run := { fragments := f } }
      = .ok ((s.inLine (.paragraph start) c f).closeParagraph start f) := rfl
  refine .of_closeInline rfl he ?_
  rw [hclose, closeParagraph]
  split
  · exact congrArg Except.ok (hnone.trans (past_nil s c).symm)
  · exact congrArg (fun s : State => Except.ok (s.addBlocks _)) hnone

@[simp] theorem inline?_closeParagraph (s : State) (start : Nat) (f : Fragments) :
    (s.closeParagraph start f).inline? = none := by
  simp only [closeParagraph]
  split <;> simp

@[simp] theorem cursor_closeParagraph (s : State) (start : Nat) (f : Fragments) :
    (s.closeParagraph start f).cursor = s.cursor := by
  simp only [closeParagraph]
  split <;> simp

@[simp] theorem cursor_closeEnvironment (s : State) (e : OpenEnvironment)
    (outer : List OpenEnvironment) : (s.closeEnvironment e outer).cursor = s.cursor.advance := by
  simp only [closeEnvironment]
  split <;> simp

/-- Finishing an item only reports something. -/
@[simp] theorem inline?_finishItem (s : State) (e : OpenEnvironment) (l : OpenList) :
    (s.finishItem e l).1.inline? = s.inline? := by
  simp only [finishItem]
  split
  · rfl
  · split <;> rfl

@[simp] theorem inline?_closeEnvironment (s : State) (e : OpenEnvironment)
    (outer : List OpenEnvironment) : (s.closeEnvironment e outer).inline? = s.inline? := by
  simp only [closeEnvironment]
  split <;> simp

/-- A paragraph without open braces and arguments is closed where it ends. -/
theorem Leads.of_closeParagraph {start : Nat} (hi : s.inline? = some i)
    (hl : i.line = .paragraph start) (hb : i.run.braces = []) (ha : i.arguments = [])
    (he : Surround.endsAt s.inList s.cursor.current .paragraph = true) :
    Leads ctx s (s.closeParagraph start i.run.fragments) := by
  have hsurround : i.surround = .paragraph := by simp [OpenInline.surround, hb, ha, hl]
  refine .of_closeInline hi (hsurround ▸ he) ?_
  simp only [closeInline, hb, ha, hl]
  rfl

end State

end Parse

/-- Where reading a source begins. -/
def Parse.State.initial (settings : Settings) (source : Text) : Parse.State :=
  { cursor := source.cursor settings.keepComments }

/-- What does not change while a source is read. -/
def Parse.Context.of (settings : Settings) (source : Text) : Parse.Context :=
  { source := source.toArray, settings }

theorem Parse.State.terminated_initial (settings : Settings) (source : Text) :
    (Parse.State.initial settings source).cursor.Terminated :=
  source.terminated_cursor settings.keepComments

/-- What a run over a source comes to. -/
def Parse.outcomeOf (settings : Settings) (source : Text) :
    Except Parse.Failure (List Block × List Diagnostic) :=
  (Parse.State.initial settings source).outcome (.of settings source)
    (Parse.State.terminated_initial settings source)

/-- A reading that leads to the end, with nothing open, comes to what was read. -/
theorem Parse.State.Leads.outcomeOf_eq {settings : Settings} {source : Text} {t : Parse.State}
    (hlead : Leads (.of settings source) (.initial settings source) t) (hi : t.inline? = none)
    (he : t.environments = []) (hk : t.cursor.current.kind = .endOfFile) :
    Parse.outcomeOf settings source = .ok (t.blocks, t.diagnostics) := by
  obtain ⟨h, heq⟩ := hlead (Parse.State.terminated_initial settings source)
  rw [Parse.outcomeOf, heq, outcome_of_endOfFile hi he hk h]

/-- The place of a failure. -/
def Parse.Failure.located (table : LineTable) (f : Parse.Failure) : StructuralError :=
  ⟨f.flaw, f.marker.token.start, f.marker.index, table.position f.marker.token.start⟩

/-- Reading a document is a run with its outcome dressed up. -/
theorem Document.parse_eq (settings : Settings) (source : Text) :
    Document.parse settings source =
      match Parse.outcomeOf settings source with
      | .error f => .error (f.located (LineTable.ofText source))
      | .ok (blocks, diagnostics) =>
        .ok {
          document :=
            { info := .span 0 source.length
              children := blocks.reverse
              lineStarts := (LineTable.ofText source).toList }
          diagnostics := diagnostics.reverse } := by
  simp only [Document.parse, Parse.outcomeOf, Parse.State.outcome, Parse.State.initial,
    Parse.Context.of]
  cases Parse.State.run { source := source.toArray, settings }
    { cursor := source.cursor settings.keepComments }
    (source.terminated_cursor settings.keepComments) <;> rfl

end LatexMarkdown
