import LatexMarkdown.Proofs.Mathematics
/-!
  The readers of whole arguments and of mathematics as loops over the cursor.

  `Loop round x r` says that rounds from `x` on go on until one leaves with `r`.  The readers take
  what is ahead of the cursor as a list and recurse over it; here each is shown to answer what a loop
  answers that looks at one token a round (`loop_readGroup`, `loop_takeMathEnvironment`,
  `loop_readMath`, `loop_readInlineMath`).  A round that goes on passes a token, and lookahead goes no
  further than the last token of the list.
-/
namespace LatexMarkdown

/-! ## Loops -/

/-- What one round of a loop comes to: it leaves with a result, or goes on with other values. -/
inductive Round (σ ρ : Type)
  | leave (result : ρ)
  | again (next : σ)

/-- Rounds from some values on go on until one leaves with a result. -/
inductive Loop {σ ρ : Type} (round : σ → Round σ ρ → Prop) : σ → ρ → Prop
  | leave {x : σ} {r : ρ} (h : round x (.leave r)) : Loop round x r
  | again {x y : σ} {r : ρ} (h : round x (.again y)) (rest : Loop round y r) : Loop round x r

/-- The values that a loop goes round with. -/
def Loop.Visits {σ ρ : Type} (round : σ → Round σ ρ → Prop) : σ → σ → Prop :=
  Relation.ReflTransGen fun x y => round x (.again y)

namespace Cursor

variable {c d : Cursor}

/-- The last token of the list is its only end-of-file token. -/
def EndsOnce (c : Cursor) : Prop := c.Terminated ∧ ∀ t ∈ c.ahead, t.kind ≠ .endOfFile

theorem EndsOnce.advance (h : c.EndsOnce) : c.advance.EndsOnce := by
  refine ⟨h.1.advance, fun t ht => h.2 t ?_⟩
  exact (Reaches.advance c).ahead_suffix.subset ht

theorem EndsOnce.of_reaches (h : c.EndsOnce) (hr : c.Reaches d) : d.EndsOnce :=
  ⟨hr.terminated h.1, fun t ht => h.2 t (hr.ahead_suffix.subset ht)⟩

theorem EndsOnce.current_of_nil (h : c.EndsOnce) (ha : c.ahead = []) :
    c.current.kind = .endOfFile := by
  rw [current_of_ahead_nil ha]
  exact h.1

theorem EndsOnce.kind_ne (h : c.EndsOnce) {t : Token} {rest : List Token}
    (ha : c.ahead = t :: rest) : t.kind ≠ .endOfFile := h.2 t (by rw [ha]; exact .head _)

/-- Where the lookahead does not meet the end, it stays before the last token. -/
theorem lt_length_of_lookahead (h : c.Terminated) {n : Nat}
    (hk : (c.lookahead n).kind ≠ .endOfFile) : n < c.ahead.length := by
  apply Nat.lt_of_not_le
  intro hle
  apply hk
  rw [lookahead, List.getElem?_eq_none hle]
  exact h

/-- Passing a token counts. -/
theorem index_advance (hk : c.current.kind ≠ .endOfFile) : c.advance.index = c.index + 1 := by
  rw [Cursor.advance, if_neg hk]

theorem Reaches.index_le (h : c.Reaches d) : c.index ≤ d.index := by
  obtain ⟨n, rfl⟩ := h
  induction n generalizing c with
  | zero => exact Nat.le_refl _
  | succ n ih =>
    refine Nat.le_trans ?_ ih
    unfold Cursor.advance
    split
    · exact Nat.le_refl _
    · exact Nat.le_succ _

theorem Passes.index_lt (h : c.Passes d) : c.index < d.index :=
  Nat.lt_of_lt_of_le (Nat.lt_of_succ_le (index_advance h.1).ge) h.2.index_le

end Cursor

namespace Parse

open Cursor (EndsOnce)

variable {source : Source} {c : Cursor}

/-! ## Spacing -/

/-- A round of a loop that skips tokens. -/
def skipRound (p : Token → Bool) (c : Cursor) : Round Cursor Cursor :=
  if p c.current then .again c.advance else .leave c

/-- Skipping tokens is a loop. -/
theorem loop_skip {p : Token → Bool} (hp : ∀ t, p t = true → t.kind ≠ .endOfFile)
    (hc : c.Terminated) : Loop (skipRound p · = ·) c (c.advanceBy (c.countWhile p)) := by
  induction hn : c.ahead.length generalizing c with
  | zero =>
    have ha : c.ahead = [] := List.length_eq_zero_iff.mp hn
    have hcurrent : p c.current = false := by
      rw [Cursor.current_of_ahead_nil ha]
      exact Bool.eq_false_iff.mpr fun h => hp _ h hc
    rw [Cursor.skipWhile_of_neg hcurrent]
    exact .leave (by rw [skipRound, hcurrent]; rfl)
  | succ n ih =>
    obtain ⟨t, rest, ha⟩ := List.exists_cons_of_length_eq_add_one hn
    cases ht : p t with
    | false =>
      have hcurrent : p c.current = false := (Cursor.current_of_ahead ha).symm ▸ ht
      rw [Cursor.skipWhile_of_neg hcurrent]
      exact .leave (by rw [skipRound, hcurrent]; rfl)
    | true =>
      rw [Cursor.skipWhile_of_pos ha ht (hp t ht)]
      refine .again ?_ (ih hc.advance (by simpa [Cursor.ahead_advance ha (hp t ht), ha] using hn))
      rw [skipRound, Cursor.current_of_ahead ha, ht]
      rfl

theorem passes_of_skipRound {p : Token → Bool} (hp : ∀ t, p t = true → t.kind ≠ .endOfFile)
    {d : Cursor} (h : skipRound p c = .again d) : c.Passes d := by
  unfold skipRound at h
  split at h
  · next hcurrent => exact ⟨hp _ hcurrent, Round.again.inj h ▸ .refl _⟩
  · cases h

/-! ## Lookahead -/

/-- A round of the loop that looks for the token an argument begins with; it goes over offsets. -/
def startRound (c : Cursor) (n : Nat) : Round Nat Nat :=
  if (c.lookahead n).isArgumentSpacing then .again (n + 1) else .leave n

/-- The group depth behind a token. -/
def depthBehind (depth : Int) (t : Token) : Int :=
  match t.kind with
  | .groupOpen => depth + 1
  | .groupClose => depth - 1
  | _ => depth

/-- A round of the loop that looks for the bracket that closes an optional argument, by its offset;
it goes over offsets and group depths. -/
def optionalRound (c : Cursor) : Nat × Int → Round (Nat × Int) (Option Nat)
  | (n, depth) =>
    let t := c.lookahead n
    if t.kind = .endOfFile ∨ t.isBlankLine then .leave none
    else if t.kind = .bracketClose ∧ depthBehind depth t ≤ 0 then .leave (some n)
    else .again (n + 1, depthBehind depth t)

theorem optionalArgumentLength?_cons (depth : Int) (t : Token) (rest : List Token) :
    optionalArgumentLength? depth (t :: rest) =
      if t.kind = .endOfFile ∨ t.isBlankLine then none
      else if t.kind = .bracketClose ∧ depthBehind depth t ≤ 0 then some 1
      else (optionalArgumentLength? (depthBehind depth t) rest).map (· + 1) := rfl

/-- The tokens from an offset on are the one there and those behind it. -/
theorem drop_eq_lookahead_cons {n : Nat} (hn : n < c.ahead.length) :
    c.ahead.drop n = c.lookahead n :: c.ahead.drop (n + 1) := by
  rw [List.drop_eq_getElem_cons hn, Cursor.lookahead, List.getElem?_eq_getElem hn,
    Option.getD_some]

/-- Where an argument begins is what a loop over offsets finds. -/
theorem loop_startArgument (hc : c.Terminated) :
    Loop (startRound c · = ·) 0 (c.countWhile Token.isArgumentSpacing) := by
  -- From any offset on, as many more rounds go on as there is spacing from there.
  have hfrom : ∀ k n, c.ahead.length - n = k → n ≤ c.ahead.length →
      Loop (startRound c · = ·) n
        (n + ((c.ahead.drop n).takeWhile Token.isArgumentSpacing).length) := by
    intro k
    induction k with
    | zero =>
      intro n hk hn
      have hend : n = c.ahead.length := by omega
      have hcurrent : (c.lookahead n).isArgumentSpacing = false := by
        refine Bool.eq_false_iff.mpr fun h => ?_
        have hlt := Cursor.lt_length_of_lookahead hc (Token.kind_ne_endOfFile_of_isArgumentSpacing h)
        omega
      rw [hend, List.drop_length]
      exact .leave (by rw [startRound, ← hend, hcurrent]; rfl)
    | succ k ih =>
      intro n hk hn
      rw [drop_eq_lookahead_cons (by omega), List.takeWhile_cons]
      cases ht : (c.lookahead n).isArgumentSpacing with
      | false => exact .leave (by rw [startRound, ht]; rfl)
      | true =>
        refine .again (y := n + 1) (by rw [startRound, ht]; rfl) ?_
        have hrest := ih (n + 1) (by omega) (by omega)
        rw [if_pos rfl, List.length_cons, ← Nat.add_assoc, Nat.add_right_comm]
        exact hrest
  exact Nat.zero_add (c.countWhile _) ▸ hfrom _ 0 rfl (Nat.zero_le _)

/-- That loop goes no further than the last token. -/
theorem le_length_of_startRound (hc : c.Terminated) {n : Nat}
    (h : Loop.Visits (startRound c · = ·) 0 n) : n ≤ c.ahead.length := by
  induction h with
  | refl => exact Nat.zero_le _
  | tail _ hround _ =>
    simp only [startRound] at hround
    split at hround
    · next hspacing =>
      have hlt := Cursor.lt_length_of_lookahead hc
        (Token.kind_ne_endOfFile_of_isArgumentSpacing hspacing)
      have hnext := Round.again.inj hround
      omega
    · cases hround

/-- How long an optional argument is, counted from an offset, is what a loop over offsets finds. -/
theorem loop_optionalArgumentLength? (hc : c.Terminated) (n : Nat) (depth : Int)
    (hn : n ≤ c.ahead.length) :
    Loop (optionalRound c · = ·) (n, depth)
      ((optionalArgumentLength? depth (c.ahead.drop n)).map fun length => n + length - 1) := by
  induction hk : c.ahead.length - n generalizing n depth with
  | zero =>
    have hend : (c.lookahead n).kind = .endOfFile := by
      apply Classical.byContradiction
      intro hne
      have hlt := Cursor.lt_length_of_lookahead hc hne
      omega
    rw [List.drop_eq_nil_of_le (by omega)]
    exact .leave (by simp [optionalRound, hend, optionalArgumentLength?])
  | succ k ih =>
    rw [drop_eq_lookahead_cons (by omega), optionalArgumentLength?_cons]
    by_cases hend : (c.lookahead n).kind = .endOfFile ∨ (c.lookahead n).isBlankLine
    · rw [if_pos hend]
      exact .leave (by simp only [optionalRound, if_pos hend]; rfl)
    · rw [if_neg hend]
      by_cases hclose : (c.lookahead n).kind = .bracketClose ∧
          depthBehind depth (c.lookahead n) ≤ 0
      · rw [if_pos hclose]
        exact .leave (by simp only [optionalRound, if_neg hend, if_pos hclose]; rfl)
      · rw [if_neg hclose]
        refine .again (y := (n + 1, depthBehind depth (c.lookahead n))) ?_ ?_
        · simp only [optionalRound, if_neg hend, if_neg hclose]
        · have hrest := ih (n + 1) (depthBehind depth (c.lookahead n)) (by omega) (by omega)
          rw [Option.map_map]
          have hshift : (fun length => n + length - 1) ∘ (· + 1)
              = fun length => n + 1 + length - 1 := by
            funext length
            simp only [Function.comp_apply]
            omega
          rw [hshift]
          exact hrest

/-- That loop goes no further than the last token. -/
theorem le_length_of_optionalRound (hc : c.Terminated) {x y : Nat × Int}
    (hx : x.1 ≤ c.ahead.length) (h : Loop.Visits (optionalRound c · = ·) x y) :
    y.1 ≤ c.ahead.length := by
  induction h with
  | refl => exact hx
  | @tail y z _ hround _ =>
    simp only [optionalRound] at hround
    split at hround
    · cases hround
    · next hend =>
      have hlt := Cursor.lt_length_of_lookahead hc fun hk => hend (.inl hk)
      split at hround
      · cases hround
      · have hnext := Round.again.inj hround
        rw [← hnext]
        exact hlt

/-- An optional argument is skipped as far as the loops over offsets go. -/
theorem loop_skipOptionalArgument (hc : c.EndsOnce)
    (hopens : (c.lookahead (c.countWhile Token.isArgumentSpacing)).kind = .bracketOpen) :
    ∃ r, Loop (optionalRound c · = ·) (c.countWhile Token.isArgumentSpacing + 1, 0) r ∧
      skipOptionalArgument c = r.elim c fun n => c.advanceBy (n + 1) := by
  generalize hn : c.countWhile Token.isArgumentSpacing = n at hopens
  have hlt : n < c.ahead.length :=
    Cursor.lt_length_of_lookahead hc.1 (by rw [hopens]; simp)
  refine ⟨_, loop_optionalArgumentLength? hc.1 (n + 1) 0 hlt, ?_⟩
  have hstart : startArgument? .bracketOpen c = some (c.advanceBy n) := by
    rw [startArgument?, hn]
    exact if_pos hopens
  have htail : (c.advanceBy n).ahead.tail = c.ahead.drop (n + 1) := by
    rw [Cursor.ahead_advanceBy hc.2 hc.1, List.tail_drop]
  rw [skipOptionalArgument, hstart]
  simp only [htail]
  cases optionalArgumentLength? 0 (c.ahead.drop (n + 1)) with
  | none => rfl
  | some length =>
    have hsum : n + 1 + length - 1 + 1 = n + (length + 1) := by omega
    rw [Option.map_some, Option.elim_some, hsum, Cursor.advanceBy_add]

/-! ## Arguments as they are spelled -/

/-- A round of the loop that reads a group behind its opening brace; it goes over the cursor, the
braces open inside and the text so far. -/
def groupRound (source : Source) (opener : Marker) :
    Cursor × Nat × Text → Round (Cursor × Nat × Text) (Except Failure (Text × Cursor))
  | (c, depth, text) =>
    let t := c.current
    let piece := if t.kind = .text ∧ t.flags.escaped then t.text else source.raw t
    let more (depth : Nat) := Round.again (c.advance, depth, text ++ piece)
    match t.kind with
    | .endOfFile => .leave (.error ⟨.unclosedGroup opener.text, opener⟩)
    | .groupOpen => more (depth + 1)
    | .groupClose =>
      match depth with
      | 0 => .leave (.ok (text, c.advance))
      | depth + 1 => more depth
    | _ => more depth

theorem passes_of_groupRound {opener : Marker} {x y : Cursor × Nat × Text}
    (h : groupRound source opener x = .again y) : x.1.Passes y.1 := by
  obtain ⟨c, depth, text⟩ := x
  simp only [groupRound] at h
  cases hk : c.current.kind <;> simp only [hk] at h
  case endOfFile => cases h
  case groupClose =>
    cases depth <;> simp only at h
    · cases h
    · rw [← Round.again.inj h]
      exact ⟨by simp [hk], .refl _⟩
  all_goals
    rw [← Round.again.inj h]
    exact ⟨by simp [hk], .refl _⟩

/-- The text of a group is what the loop reads. -/
theorem loop_groupText? (source : Source) (hc : c.EndsOnce) (opener : Marker) (depth : Nat)
    (before : Text) :
    Loop (groupRound source opener · = ·) (c, depth, before)
      ((groupText? source depth c.ahead).elim (.error ⟨.unclosedGroup opener.text, opener⟩)
        fun r => .ok (before ++ r.1, c.advanceBy r.2)) := by
  induction hn : c.ahead.length generalizing c depth before with
  | zero =>
    have ha : c.ahead = [] := List.length_eq_zero_iff.mp hn
    rw [ha]
    exact .leave (by simp only [groupRound, hc.current_of_nil ha]; rfl)
  | succ n ih =>
    obtain ⟨t, rest, ha⟩ := List.exists_cons_of_length_eq_add_one hn
    have hk := hc.kind_ne ha
    have hcurrent := Cursor.current_of_ahead ha
    have hadvance := Cursor.ahead_advance ha hk
    -- What the rest comes to, by the depth and the text that the round goes on with.
    have hmore : ∀ (depth : Nat) (piece : Text),
        Loop (groupRound source opener · = ·) (c.advance, depth, before ++ piece)
          (((groupText? source depth rest).map fun r => (piece ++ r.1, r.2 + 1)).elim
            (.error ⟨.unclosedGroup opener.text, opener⟩)
            fun r => .ok (before ++ r.1, c.advanceBy r.2)) := by
      intro depth piece
      have hrest := ih hc.advance depth (before ++ piece) (by simpa [hadvance, ha] using hn)
      rw [hadvance] at hrest
      cases hg : groupText? source depth rest with
      | none => simpa only [hg, Option.map_none, Option.elim_none] using hrest
      | some r =>
        simpa only [hg, Option.map_some, Option.elim_some, List.append_assoc, Cursor.advanceBy_succ]
          using hrest
    rw [ha]
    cases hkind : t.kind <;> simp only [groupText?, hkind]
    case endOfFile => exact absurd hkind hk
    case groupClose =>
      cases depth with
      | zero =>
        refine .leave ?_
        simp only [groupRound, hcurrent, hkind, List.append_nil, Option.elim_some,
          Cursor.advanceBy_succ, Cursor.advanceBy_zero]
      | succ depth =>
        exact .again (by simp only [groupRound, hcurrent, hkind]) (hmore depth _)
    all_goals exact .again (by simp only [groupRound, hcurrent, hkind]) (hmore _ _)

/-- An argument taken as it is spelled is what a loop reads behind its opening brace. -/
theorem loop_readGroup (source : Source) (hc : c.EndsOnce) (owner : Marker) (flaw : Flaw) :
    readGroup source owner flaw c = .error ⟨flaw, owner⟩ ∨
      ∃ opened, startArgument? .groupOpen c = some opened ∧
        Loop (groupRound source opened.marker · = ·) (opened.advance, 0, [])
          (readGroup source owner flaw c) := by
  cases hs : startArgument? .groupOpen c with
  | none =>
    left
    simp only [readGroup, startGroup, hs]
    rfl
  | some opened =>
    right
    refine ⟨opened, rfl, ?_⟩
    have hopened := hc.of_reaches (reaches_of_startArgument? hs)
    have hk : opened.current.kind ≠ .endOfFile := by simp [kind_of_startArgument? hs]
    have htail : opened.advance.ahead = opened.ahead.tail :=
      Cursor.ahead_advance (Cursor.ahead_eq_cons hopened.1 hk) hk
    have hloop := loop_groupText? source hopened.advance opened.marker 0 []
    have hread : readGroup source owner flaw c =
        (groupText? source 0 opened.advance.ahead).elim
          (.error ⟨.unclosedGroup opened.marker.text, opened.marker⟩)
          fun r => .ok ([] ++ r.1, opened.advance.advanceBy r.2) := by
      simp only [readGroup, startGroup, hs, htail]
      show Except.bind (.ok opened) _ = _
      simp only [Except.bind]
      cases groupText? source 0 opened.ahead.tail <;> rfl
    rw [hread]
    exact hloop

/-! ## Mathematics -/

/-- A round of the loop that reads the body of a mathematics environment; it goes over the cursor and
the text so far. -/
def environmentRound (source : Source) (begun : Marker) :
    Cursor × Text → Round (Cursor × Text) (Except Failure (Text × Cursor))
  | (c, text) =>
    let t := c.current
    if t.kind = .endOfFile then .leave (.error ⟨.unclosedEnvironment begun.text, begun⟩)
    else if t.kind = .envEnd ∧ t.text = begun.text then .leave (.ok (text, c))
    else .again (c.advance, text ++ source.raw t)

theorem passes_of_environmentRound {begun : Marker} {x y : Cursor × Text}
    (h : environmentRound source begun x = .again y) : x.1.Passes y.1 := by
  obtain ⟨c, text⟩ := x
  simp only [environmentRound] at h
  split at h
  · cases h
  · next hk =>
    split at h
    · cases h
    · exact ⟨hk, Round.again.inj h ▸ .refl _⟩

/-- The source up to the end marker of an environment is what the loop reads; it leaves the end marker
current. -/
theorem loop_textUpTo? (source : Source) (hc : c.EndsOnce) (begun : Marker) (before : Text) :
    ∃ r, Loop (environmentRound source begun · = ·) (c, before) r ∧
      (textUpTo? source (fun t => t.kind == .envEnd && t.text == begun.text) c.ahead).elim
        (r = .error ⟨.unclosedEnvironment begun.text, begun⟩)
        fun found => ∃ d, r = .ok (before ++ found.1, d) ∧ d.advance = c.advanceBy found.2 := by
  induction hn : c.ahead.length generalizing c before with
  | zero =>
    have ha : c.ahead = [] := List.length_eq_zero_iff.mp hn
    rw [ha]
    exact ⟨_, .leave (by simp only [environmentRound, hc.current_of_nil ha, if_true]), rfl⟩
  | succ n ih =>
    obtain ⟨t, rest, ha⟩ := List.exists_cons_of_length_eq_add_one hn
    have hk := hc.kind_ne ha
    have hcurrent := Cursor.current_of_ahead ha
    have hadvance := Cursor.ahead_advance ha hk
    rw [ha, textUpTo?, if_neg hk]
    by_cases hcloses : t.kind = .envEnd ∧ t.text = begun.text
    · rw [if_pos (by simpa using hcloses)]
      refine ⟨.ok (before, c), .leave ?_, c, by rw [List.append_nil], rfl⟩
      simp only [environmentRound, hcurrent, if_neg hk, if_pos hcloses]
    · rw [if_neg (by simpa using hcloses)]
      obtain ⟨r, hloop, hr⟩ := ih hc.advance (before ++ source.raw t) (by simpa [hadvance, ha] using hn)
      refine ⟨r, .again ?_ hloop, ?_⟩
      · simp only [environmentRound, hcurrent, if_neg hk, if_neg hcloses]
      · rw [hadvance] at hr
        cases htext : textUpTo? source (fun t => t.kind == .envEnd && t.text == begun.text) rest with
        | none => simpa only [htext, Option.map_none, Option.elim_none] using hr
        | some found =>
          simpa only [htext, Option.map_some, Option.elim_some, List.append_assoc,
            Cursor.advanceBy_succ] using hr

/-- A mathematics environment is read by that loop. -/
theorem loop_takeMathEnvironment (ctx : Context) (s : State) (hc : c.EndsOnce) (begun : Marker)
    (aligned : Bool) :
    ∃ r, Loop (environmentRound ctx.source begun · = ·) (c, []) r ∧
      s.takeMathEnvironment ctx c begun aligned = r.map fun found =>
        (({ s with cursor := found.2.advance } : State).addBlocks
          [.math (.span begun.token.start found.2.advance.lastStop) found.1.trim
            (if aligned then some begun.text else none)]) := by
  obtain ⟨r, hloop, hr⟩ := loop_textUpTo? ctx.source hc begun []
  refine ⟨r, hloop, ?_⟩
  simp only [State.takeMathEnvironment]
  cases htext : textUpTo? ctx.source (fun t => t.kind == .envEnd && t.text == begun.text)
    c.ahead with
  | none =>
    rw [htext] at hr
    rw [hr]
    rfl
  | some found =>
    rw [htext] at hr
    obtain ⟨d, rfl, hd⟩ := hr
    simp only [Except.map, hd, List.nil_append]
    rfl

/-- Mathematics up to a closing delimiter; a double dollar may close it with its first half and open
the next with its second. -/
structure Collected where
  text : Text
  stop : Nat
  cursor : Cursor
  reopened : Option Marker := none

/-- The second half of a double dollar, which opens the next mathematics. -/
def half (c : Cursor) : Marker :=
  ⟨{ c.current with kind := .mathInline, start := c.current.start + 1, text := "$" }, c.index⟩

/-- A round of the loop that reads mathematics up to its closing delimiter, which is passed; it goes
over the cursor and the text so far. -/
def collectRound (source : Source) (opener : Marker) (kind : TokenKind) (closer : Text) :
    Cursor × Text → Round (Cursor × Text) (Except Failure Collected)
  | (c, text) =>
    let t := c.current
    if t.kind = .endOfFile then .leave (.error ⟨.unclosedMath opener.text, opener⟩)
    else if t.kind = kind ∧ t.text = closer then
      .leave (.ok { text := text.trim, stop := t.stop, cursor := c.advance })
    else if closer = "$" ∧ t.kind = .mathDisplay ∧ t.text = "$$" then
      .leave (.ok {
        text := text.trim, stop := t.start + 1, cursor := c.advance, reopened := some (half c) })
    else .again (c.advance, text ++ source.raw t)

theorem passes_of_collectRound {opener : Marker} {kind : TokenKind} {closer : Text}
    {x y : Cursor × Text} (h : collectRound source opener kind closer x = .again y) :
    x.1.Passes y.1 := by
  obtain ⟨c, text⟩ := x
  simp only [collectRound] at h
  split at h
  · cases h
  · next hk =>
    split at h
    · cases h
    · split at h
      · cases h
      · exact ⟨hk, Round.again.inj h ▸ .refl _⟩

/-- What that loop finds lies behind the closing delimiter. -/
theorem passes_of_collect {opener : Marker} {kind : TokenKind} {closer : Text} {x : Cursor × Text}
    {r : Except Failure Collected} (h : Loop (collectRound source opener kind closer · = ·) x r)
    {m : Collected} (hm : r = .ok m) : x.1.Passes m.cursor := by
  induction h with
  | @leave x r h =>
    subst hm
    obtain ⟨c, text⟩ := x
    simp only [collectRound] at h
    split at h
    · cases h
    · next hk =>
      split at h
      · cases h
        exact ⟨hk, .refl _⟩
      · split at h <;> cases h
        exact ⟨hk, .refl _⟩
  | again h _ ih => exact (passes_of_collectRound h).trans (ih hm).reaches

/-- A round of the loop that reads inline mathematics, span after span; it goes over the cursor, the
opening delimiter and the spans so far. -/
inductive SpanRound (source : Source) (kind : TokenKind) (closer : Text) :
    Cursor × Marker × List Inline →
      Round (Cursor × Marker × List Inline) (Except Failure (List Inline × Cursor)) → Prop
  | failed {c : Cursor} {opener : Marker} {spans : List Inline} {f : Failure}
      (h : Loop (collectRound source opener kind closer · = ·) (c, []) (.error f)) :
      SpanRound source kind closer (c, opener, spans) (.leave (.error f))
  | closed {c : Cursor} {opener : Marker} {spans : List Inline} {m : Collected}
      (h : Loop (collectRound source opener kind closer · = ·) (c, []) (.ok m))
      (hr : m.reopened = none) :
      SpanRound source kind closer (c, opener, spans)
        (.leave (.ok (spans ++ mathSpan opener.token.start m.stop m.text, m.cursor)))
  | reopened {c : Cursor} {opener next : Marker} {spans : List Inline} {m : Collected}
      (h : Loop (collectRound source opener kind closer · = ·) (c, []) (.ok m))
      (hr : m.reopened = some next) :
      SpanRound source kind closer (c, opener, spans)
        (.again (m.cursor, next, spans ++ mathSpan opener.token.start m.stop m.text))

theorem passes_of_spanRound {kind : TokenKind} {closer : Text} {x y : Cursor × Marker × List Inline}
    (h : SpanRound source kind closer x (.again y)) : x.1.Passes y.1 := by
  cases h with
  | reopened h => exact passes_of_collect h rfl

/-- The source up to a closing delimiter other than a dollar is what the loop reads. -/
theorem loop_collect (source : Source) (hc : c.EndsOnce) (opener : Marker) {kind : TokenKind}
    {closer : Text} (hcloser : closer ≠ "$") (before : Text) :
    Loop (collectRound source opener kind closer · = ·) (c, before)
      ((textUpTo? source (fun t => t.kind == kind && t.text == closer) c.ahead).elim
        (.error ⟨.unclosedMath opener.text, opener⟩)
        fun found => .ok {
          text := (before ++ found.1).trim
          stop := (c.advanceBy found.2).lastStop
          cursor := c.advanceBy found.2 }) := by
  induction hn : c.ahead.length generalizing c before with
  | zero =>
    have ha : c.ahead = [] := List.length_eq_zero_iff.mp hn
    rw [ha]
    exact .leave (by simp only [collectRound, hc.current_of_nil ha, if_true]; rfl)
  | succ n ih =>
    obtain ⟨t, rest, ha⟩ := List.exists_cons_of_length_eq_add_one hn
    have hk := hc.kind_ne ha
    have hcurrent := Cursor.current_of_ahead ha
    have hadvance := Cursor.ahead_advance ha hk
    rw [ha, textUpTo?, if_neg hk]
    by_cases hcloses : t.kind = kind ∧ t.text = closer
    · rw [if_pos (by simpa using hcloses)]
      refine .leave ?_
      have hstop : c.advance.lastStop = t.stop := by rw [Cursor.advance_of_ahead ha hk]; rfl
      simp only [collectRound, hcurrent, if_neg hk, if_pos hcloses, List.append_nil,
        Option.elim_some, Cursor.advanceBy_succ, Cursor.advanceBy_zero, hstop]
    · rw [if_neg (by simpa using hcloses)]
      have hrest := ih hc.advance (before ++ source.raw t) (by simpa [hadvance, ha] using hn)
      refine .again (y := (c.advance, before ++ source.raw t)) ?_ ?_
      · simp only [collectRound, hcurrent, if_neg hk, if_neg hcloses, hcloser, false_and, if_false]
      · rw [hadvance] at hrest
        cases htext : textUpTo? source (fun t => t.kind == kind && t.text == closer) rest with
        | none => simpa only [htext, Option.map_none, Option.elim_none] using hrest
        | some found =>
          simpa only [htext, Option.map_some, Option.elim_some, List.append_assoc,
            Cursor.advanceBy_succ] using hrest

/-- Mathematics behind any opening delimiter but a single dollar is what the loop reads. -/
theorem loop_readMath (source : Source) (hc : c.EndsOnce) (hk : c.current.kind ≠ .endOfFile)
    (hcloser : mathCloser c.current.text ≠ "$") :
    ∃ r,
      Loop (collectRound source c.marker c.current.kind (mathCloser c.current.text) · = ·)
        (c.advance, []) r ∧
      readMath source c = r.map (fun m => (m.text, m.cursor)) ∧
      ∀ m, r = .ok m → m.reopened = none ∧ m.stop = m.cursor.lastStop := by
  have htail : c.advance.ahead = c.ahead.tail :=
    Cursor.ahead_advance (Cursor.ahead_eq_cons hc.1 hk) hk
  refine ⟨_, loop_collect source hc.advance c.marker hcloser [], ?_⟩
  simp only [readMath, ← htail, Cursor.marker, Marker.text]
  cases textUpTo? source
      (fun t => t.kind == c.current.kind && t.text == mathCloser c.current.text)
      c.advance.ahead with
  | none => exact ⟨rfl, fun m hm => by cases hm⟩
  | some found => exact ⟨rfl, fun m hm => by cases hm; exact ⟨rfl, rfl⟩⟩

theorem mathSpan_trim (start stop : Nat) (body : Text) :
    mathSpan start stop body.trim = mathSpan start stop body := by
  rw [mathSpan, mathSpan, Text.trim_trim]

/-- What the loop over spans comes to when the one being read comes to `m`. -/
inductive SpansFrom (source : Source) (opener : Marker) (spans : List Inline) :
    Except Failure Collected → Except Failure (List Inline × Cursor) → Prop
  | failed (f : Failure) : SpansFrom source opener spans (.error f) (.error f)
  | closed {m : Collected} (hr : m.reopened = none) :
      SpansFrom source opener spans (.ok m)
        (.ok (spans ++ mathSpan opener.token.start m.stop m.text, m.cursor))
  | reopened {m : Collected} {next : Marker} {r : Except Failure (List Inline × Cursor)}
      (hr : m.reopened = some next)
      (h : Loop (SpanRound source .mathInline "$")
        (m.cursor, next, spans ++ mathSpan opener.token.start m.stop m.text) r) :
      SpansFrom source opener spans (.ok m) r

theorem SpansFrom.loop {opener : Marker} {spans : List Inline} {m : Except Failure Collected}
    {r : Except Failure (List Inline × Cursor)} (h : SpansFrom source opener spans m r)
    (hm : Loop (collectRound source opener .mathInline "$" · = ·) (c, []) m) :
    Loop (SpanRound source .mathInline "$") (c, opener, spans) r := by
  cases h with
  | failed f => exact .leave (.failed hm)
  | closed hr => exact .leave (.closed hm hr)
  | reopened hr h => exact .again (.reopened hm hr) h

/-- What follows a single dollar is what the loops read: one over the tokens of a span, and around it
one over spans. -/
theorem loop_readDollars (source : Source) (hc : c.EndsOnce) (opener : Marker) (pieces : List Text)
    (spans : List Inline) :
    ∃ m, Loop (collectRound source opener .mathInline "$" · = ·) (c, pieces.reverse.flatten) m ∧
      SpansFrom source opener spans m
        ((readDollars source opener c.index pieces c.ahead).map fun r =>
          (spans ++ r.1, c.advanceBy r.2)) := by
  induction hn : c.ahead.length generalizing c opener pieces spans with
  | zero =>
    have ha : c.ahead = [] := List.length_eq_zero_iff.mp hn
    rw [ha]
    refine ⟨_, .leave ?_, .failed ⟨.unclosedMath opener.text, opener⟩⟩
    simp only [collectRound, hc.current_of_nil ha, if_true]
  | succ n ih =>
    obtain ⟨t, rest, ha⟩ := List.exists_cons_of_length_eq_add_one hn
    have hk := hc.kind_ne ha
    have hcurrent := Cursor.current_of_ahead ha
    have hadvance := Cursor.ahead_advance ha hk
    have hindex : c.advance.index = c.index + 1 :=
      Cursor.index_advance (by rw [hcurrent]; exact hk)
    have hlen : c.advance.ahead.length = n := by simpa [hadvance, ha] using hn
    rw [ha, readDollars, if_neg hk]
    by_cases hcloses : t.kind = .mathInline ∧ t.text = "$"
    · -- The closing dollar.
      rw [if_pos hcloses]
      refine ⟨.ok { text := Text.trim pieces.reverse.flatten, stop := t.stop, cursor := c.advance },
        .leave (by simp only [collectRound, hcurrent, if_neg hk, if_pos hcloses]), ?_⟩
      rw [← mathSpan_trim]
      exact .closed rfl
    rw [if_neg hcloses]
    by_cases hdouble : t.kind = .mathDisplay ∧ t.text = "$$"
    · -- A double dollar: its second half opens the next span.
      rw [if_pos hdouble]
      have hhalf : half c =
          ⟨{ t with kind := .mathInline, start := t.start + 1, text := "$" }, c.index⟩ := by
        rw [half, hcurrent]
      obtain ⟨next, hnext, hspans⟩ := ih hc.advance (half c) []
        (spans ++ mathSpan opener.token.start (t.start + 1) (Text.trim pieces.reverse.flatten)) hlen
      have hloop := hspans.loop hnext
      rw [hadvance, hindex] at hloop
      refine ⟨.ok {
          text := Text.trim pieces.reverse.flatten
          stop := t.start + 1
          cursor := c.advance
          reopened := some (half c) }, .leave ?_, .reopened rfl ?_⟩
      · simp only [collectRound, hcurrent, if_neg hk, if_neg hcloses, true_and, if_pos hdouble]
      · show Loop _ _ ((readDollars source _ (c.index + 1) [] rest >>= _).map _)
        rw [← hhalf]
        cases hread : readDollars source (half c) (c.index + 1) [] rest with
        | error f => rw [hread] at hloop; exact hloop
        | ok r =>
          rw [hread] at hloop
          show Loop _ _ (Except.ok (spans ++ (mathSpan _ _ _ ++ r.1), c.advanceBy (r.2 + 1)))
          rw [← mathSpan_trim opener.token.start (t.start + 1) pieces.reverse.flatten,
            ← List.append_assoc, Cursor.advanceBy_succ]
          exact hloop
    · -- Any other token belongs to the body.
      rw [if_neg hdouble]
      obtain ⟨m, hm, hspans⟩ := ih hc.advance opener (source.raw t :: pieces) spans hlen
      refine ⟨m, .again (y := (c.advance, pieces.reverse.flatten ++ source.raw t)) ?_ ?_, ?_⟩
      · simp only [collectRound, hcurrent, if_neg hk, if_neg hcloses, true_and, if_neg hdouble]
      · simpa using hm
      · rw [hadvance, hindex] at hspans
        show SpansFrom _ _ _ _
          ((readDollars source opener (c.index + 1) (source.raw t :: pieces) rest >>= _).map _)
        cases hread : readDollars source opener (c.index + 1) (source.raw t :: pieces) rest with
        | error f => rw [hread] at hspans; exact hspans
        | ok r => rw [hread] at hspans; exact hspans

/-- The kind of the delimiter that closes mathematics opened with the given token. -/
def closerKind (t : Token) : TokenKind := if t.text = "$" then .mathInline else t.kind

/-- Inline mathematics is what the loop over spans reads behind its opening delimiter. -/
theorem loop_readInlineMath (source : Source) (hc : c.EndsOnce) (hk : c.current.kind ≠ .endOfFile) :
    Loop (SpanRound source (closerKind c.current) (mathCloser c.current.text))
      (c.advance, c.marker, []) (readInlineMath source c) := by
  have htail : c.advance.ahead = c.ahead.tail :=
    Cursor.ahead_advance (Cursor.ahead_eq_cons hc.1 hk) hk
  by_cases htext : c.current.text = "$"
  · obtain ⟨m, hm, hspans⟩ := loop_readDollars source hc.advance c.marker [] []
    have hcloser : mathCloser c.current.text = "$" := by rw [htext]; decide
    have hloop := hspans.loop hm
    rw [closerKind, if_pos htext, hcloser]
    rw [htail, Cursor.index_advance hk] at hloop
    have hread : readInlineMath source c =
        readDollars source c.marker (c.index + 1) [] c.ahead.tail >>= fun r =>
          .ok (r.1, c.advanceBy (r.2 + 1)) := if_pos htext
    rw [hread]
    cases hread : readDollars source c.marker (c.index + 1) [] c.ahead.tail with
    | error f => rw [hread] at hloop; exact hloop
    | ok r => rw [hread] at hloop; exact hloop
  · have hcloser : mathCloser c.current.text ≠ "$" := by
      unfold mathCloser
      split
      · decide
      · split
        · decide
        · exact htext
    obtain ⟨r, hloop, hread, hr⟩ := loop_readMath source hc hk hcloser
    rw [closerKind, if_neg htext]
    have hinline : readInlineMath source c = readMath source c >>= fun r =>
        .ok (mathSpan c.current.start r.2.lastStop r.1, r.2) := if_neg htext
    rw [hinline, hread]
    cases r with
    | error f => exact .leave (.failed hloop)
    | ok m =>
      obtain ⟨hreopened, hstop⟩ := hr m rfl
      show Loop _ _ (Except.ok ([] ++ mathSpan _ m.cursor.lastStop m.text, m.cursor))
      rw [← hstop]
      exact .leave (.closed hloop hreopened)

end Parse

end LatexMarkdown
