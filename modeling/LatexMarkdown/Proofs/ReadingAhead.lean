import LatexMarkdown.Proofs.Running
import LatexMarkdown.Token.Lookahead
import Mathlib.Data.List.TakeWhile
/-!
  Reading ahead cannot be told from having the whole list.

  A `Lookahead` reads tokens only as far as it was asked to look.  What it read and what it did not read
  always make up the list, and what it passed was read (`ReadsFrom`), so each of its answers is one that
  its index into the list gives (`IsIndexInto`), however far it was asked to look before.  A `Cursor`,
  which has the whole list, gives the same answers.

  Main statement: `isIndexInto_after`.
-/
namespace LatexMarkdown

variable {P : Type}

/-- A token of the list is an end-of-file token just when it is the last, and there is one. -/
structure Token.EndsOnce (tokens : List (Token P)) : Prop where
  ne_nil : tokens ≠ []
  kind_iff : ∀ i t, tokens[i]? = some t → (t.kind = .endOfFile ↔ i + 1 = tokens.length)

namespace Lookahead

/-! ## Reading -/

section Reading

variable {l : Lookahead P} {tooFew : Nat → Bool}

theorem fill_stops (tooSmall : Nat → Bool) (buffer : Array (Token P)) (ts : List (Token P)) :
    (fill tooSmall buffer ts).2 = [] ∨ tooSmall (fill tooSmall buffer ts).1.size = false := by
  induction ts generalizing buffer with
  | nil => exact .inl rfl
  | cons t rest ih =>
    rw [fill]
    split
    · exact ih _
    · next h => exact .inr (Bool.eq_false_iff.mpr h)

theorem le_size_fill (tooSmall : Nat → Bool) (buffer : Array (Token P)) (ts : List (Token P)) :
    buffer.size ≤ (fill tooSmall buffer ts).1.size := by
  induction ts generalizing buffer with
  | nil => exact Nat.le_refl _
  | cons t rest ih =>
    rw [fill]
    split
    · exact Nat.le_trans (by simp) (ih _)
    · exact Nat.le_refl _

/-- Reading stops at the end of the list or when enough was read. -/
theorem readWhile_stops (tooFew : Nat → Bool) (l : Lookahead P) :
    (l.readWhile tooFew).unread = [] ∨ tooFew (l.readWhile tooFew).buffer.size = false :=
  fill_stops tooFew l.buffer l.unread

/-- What was read stays read. -/
theorem le_size_readWhile (tooFew : Nat → Bool) (l : Lookahead P) :
    l.buffer.size ≤ (l.readWhile tooFew).buffer.size :=
  le_size_fill tooFew l.buffer l.unread

theorem length_tokens (l : Lookahead P) : l.tokens.length = l.buffer.size + l.unread.length := by
  simp [tokens]

theorem getElem?_buffer {i : Nat} (h : i < l.buffer.size) : l.buffer[i]? = l.tokens[i]? := by
  rw [tokens, List.getElem?_append_left (by simpa using h), Array.getElem?_toList]

end Reading

variable {l l' : Lookahead P} {tokens : List (Token P)}

/-! ## What is read and what is left -/

/-- The tokens read and not read make up a list, its passed tokens were read, and the place is one of
the list. -/
structure ReadsFrom (l : Lookahead P) (tokens : List (Token P)) : Prop where
  whole : l.tokens = tokens
  read : l.index ≤ l.buffer.size
  inside : l.index < tokens.length

theorem ReadsFrom.ofTokens (h : tokens ≠ []) : (ofTokens tokens).ReadsFrom tokens :=
  ⟨rfl, Nat.le_refl _, List.length_pos_iff.mpr h⟩

theorem ReadsFrom.tokens_ne_nil (h : l.ReadsFrom tokens) : l.tokens ≠ [] := by
  rw [h.whole]
  exact List.length_pos_iff.mp (Nat.zero_lt_of_lt h.inside)

variable [OfNat P 0]

theorem tokenAt_of_min_eq {place : Int} {m : Nat} (hplace : 0 ≤ place)
    (hm : min place.toNat (l.buffer.size - 1) = m) (hlt : m < l.buffer.size) :
    l.tokens[m]? = some (l.tokenAt place) := by
  rw [tokenAt, if_neg (Int.not_lt.mpr hplace), hm, ← getElem?_buffer hlt]
  simp [hlt]

theorem fst_peekBy_of_neg {offset : Int} (h : l.index + offset < 0) :
    (l.peekBy offset).1 = .endOfInput := if_pos h

/-- Looking at a place finds the token there, and the last one past the end. -/
theorem getElem?_peekBy (hne : l.tokens ≠ []) {offset : Int} (h : 0 ≤ l.index + offset) :
    l.tokens[min (l.index + offset).toNat (l.tokens.length - 1)]? = some (l.peekBy offset).1 := by
  have hlength := List.length_pos_iff.mpr hne
  have hstops := readWhile_stops (fun size => (size : Int) ≤ l.index + offset) l
  rw [peekBy]
  generalize hread : l.readWhile (fun size => (size : Int) ≤ l.index + offset) = r at hstops
  have htokens : r.tokens = l.tokens := hread ▸ tokens_readWhile _ l
  have hsize := r.length_tokens
  rw [← htokens] at hlength ⊢
  -- Either the whole list was read, or the place is one of those that were.
  have hread' : r.buffer.size = r.tokens.length ∨ (l.index + offset).toNat < r.buffer.size := by
    rcases hstops with hall | henough
    · rw [hall, List.length_nil] at hsize
      exact .inl hsize.symm
    · have := of_decide_eq_false henough
      exact .inr (by omega)
  exact tokenAt_of_min_eq h (by omega) (by omega)

/-! ## Calls -/

/-- What a cursor is asked for, at whole offsets. -/
inductive Call
  | peek (offset : Int)
  | advance
  | skipSpacing
  deriving DecidableEq, Repr

/-- Is it a call that may move the cursor? -/
def Call.moves : Call → Bool
  | .peek _ => false
  | .advance | .skipSpacing => true

/-- A call, with the token that it answers. -/
def call (l : Lookahead P) : Call → Option (Token P) × Lookahead P
  | .peek offset => (some (l.peekBy offset).1, (l.peekBy offset).2)
  | .advance => (some l.advance.1, l.advance.2)
  | .skipSpacing => (none, l.skipSpacing)

/-- The cursor after calls. -/
def after (l : Lookahead P) (calls : List Call) : Lookahead P :=
  calls.foldl (fun l c => (l.call c).2) l

/-- What calls one after the other come to: the tokens that they answer, and where each leaves the
cursor. -/
def answers (l : Lookahead P) : List Call → List (Option (Token P) × Nat × Option P)
  | [] => []
  | c :: rest => ((l.call c).1, (l.call c).2.index, (l.call c).2.lastStop?) :: (l.call c).2.answers rest

/-- The same calls of a cursor that has the whole list. -/
def callWhole (c : Cursor P) : Call → Cursor P
  | .peek _ => c
  | .advance => c.advance
  | .skipSpacing => c.skipSpacing

/-! ## Every call reads on -/

namespace ReadsFrom

theorem peekBy (h : l.ReadsFrom tokens) (offset : Int) : (l.peekBy offset).2.ReadsFrom tokens :=
  ⟨(tokens_peekBy l offset).trans h.whole, Nat.le_trans h.read (le_size_readWhile _ l), h.inside⟩

theorem getElem?_current (h : l.ReadsFrom tokens) : tokens[l.index]? = some l.current.1 := by
  have hinside := h.inside
  have hpeek := getElem?_peekBy h.tokens_ne_nil (show 0 ≤ (l.index : Int) + 0 by omega)
  rw [h.whole, Int.add_zero, Int.toNat_natCast, Nat.min_eq_left (by omega)] at hpeek
  exact hpeek

/-- The current token is read when it is looked at. -/
theorem index_lt_size_current (h : l.ReadsFrom tokens) : l.index < l.current.2.buffer.size := by
  have hinside := h.inside
  have hsize := l.current.2.length_tokens
  rw [tokens_current, h.whole] at hsize
  have hstops : l.current.2.unread = [] ∨
      decide ((l.current.2.buffer.size : Int) ≤ l.index + 0) = false := readWhile_stops _ l
  rcases hstops with hall | henough
  · rw [hall, List.length_nil] at hsize
    omega
  · have := of_decide_eq_false henough
    omega

theorem advance (htokens : Token.EndsOnce tokens) (h : l.ReadsFrom tokens) :
    l.advance.2.ReadsFrom tokens := by
  have hread := h.index_lt_size_current
  have hlast := htokens.kind_iff _ _ h.getElem?_current
  have hinside := h.inside
  have hcurrent : l.current.2.ReadsFrom tokens := h.peekBy 0
  refine ⟨(tokens_advance l).trans h.whole, ?_, ?_⟩
  · simp only [Lookahead.advance]
    split
    · exact hcurrent.read
    · exact hread
  · rw [index_advance]
    split
    · exact hinside
    · next hkind =>
      have hbefore := mt hlast.mpr hkind
      omega

theorem skipSpacing (htokens : Token.EndsOnce tokens) (h : l.ReadsFrom tokens) :
    l.skipSpacing.ReadsFrom tokens := by
  induction l using skipSpacing.induct with
  | case1 l hspacing ih =>
    rw [Lookahead.skipSpacing, if_pos hspacing]
    exact ih (h.advance htokens)
  | case2 l hstop =>
    rw [Lookahead.skipSpacing, if_neg hstop]
    exact h.peekBy 0

theorem call (htokens : Token.EndsOnce tokens) (h : l.ReadsFrom tokens) (c : Call) :
    (l.call c).2.ReadsFrom tokens := by
  cases c with
  | peek offset => exact h.peekBy offset
  | advance => exact h.advance htokens
  | skipSpacing => exact h.skipSpacing htokens

theorem after (htokens : Token.EndsOnce tokens) (h : l.ReadsFrom tokens) (calls : List Call) :
    (l.after calls).ReadsFrom tokens := by
  induction calls generalizing l with
  | nil => exact h
  | cons c rest ih => exact ih (h.call htokens c)

end ReadsFrom

/-! ## The answers of an index -/

/-- The first token of the list from a place on that is neither blank text nor a line break. -/
structure IsFirstBehindSpacing (tokens : List (Token P)) (from' i : Nat) : Prop where
  le : from' ≤ i
  stops : ∃ t, tokens[i]? = some t ∧ t.isSpacing = false
  passes : ∀ j, from' ≤ j → j < i → ∃ t, tokens[j]? = some t ∧ t.isSpacing = true

omit [OfNat P 0] in
theorem IsFirstBehindSpacing.unique {from' i j : Nat} (hi : IsFirstBehindSpacing tokens from' i)
    (hj : IsFirstBehindSpacing tokens from' j) : i = j := by
  -- The later of the two would have passed the earlier.
  have hnot : ∀ {i j : Nat}, IsFirstBehindSpacing tokens from' i →
      IsFirstBehindSpacing tokens from' j → ¬ i < j := by
    intro i j hi hj hlt
    obtain ⟨t, ht, hstops⟩ := hi.stops
    obtain ⟨u, hu, hpasses⟩ := hj.passes i hi.le hlt
    obtain rfl : t = u := Option.some.inj (ht.symm.trans hu)
    simp [hstops] at hpasses
  exact Nat.le_antisymm (Nat.not_lt.mp (hnot hj hi)) (Nat.not_lt.mp (hnot hi hj))

/-- The cursor answers what its index into the list tells. -/
structure IsIndexInto (l : Lookahead P) (tokens : List (Token P)) : Prop where
  inside : l.index < tokens.length
  /-- A look past the end finds the last token, one before the start the empty end-of-file token. -/
  peek : ∀ (offset : Number) (k : Int), offset.toInt? = some k →
    (l.index + k < 0 → (l.peek offset).1 = .endOfInput) ∧
      (0 ≤ l.index + k →
        tokens[min (l.index + k).toNat (tokens.length - 1)]? = some (l.peek offset).1)
  /-- Moving on answers the current token. -/
  current : tokens[l.index]? = some l.advance.1
  /-- It goes one place on, unless that is the end-of-file token. -/
  advance : l.advance.2.index = if l.advance.1.kind = .endOfFile then l.index else l.index + 1
  skipSpacing : IsFirstBehindSpacing tokens l.index l.skipSpacing.index
  lastStop : l.lastStop? = if l.index = 0 then some 0 else tokens[l.index - 1]?.map (·.stop)

namespace ReadsFrom

theorem isFirstBehindSpacing (htokens : Token.EndsOnce tokens) (h : l.ReadsFrom tokens) :
    IsFirstBehindSpacing tokens l.index l.skipSpacing.index := by
  induction l using Lookahead.skipSpacing.induct with
  | case1 l hspacing ih =>
    have hkind := Token.kind_ne_endOfFile_of_isSpacing hspacing.1
    have hrest := ih (h.advance htokens)
    rw [index_advance, if_neg hkind] at hrest
    rw [Lookahead.skipSpacing, if_pos hspacing]
    refine ⟨Nat.le_of_succ_le hrest.le, hrest.stops, fun j hle hlt => ?_⟩
    rcases Nat.eq_or_lt_of_le hle with rfl | hlater
    · exact ⟨_, h.getElem?_current, hspacing.1⟩
    · exact hrest.passes j hlater hlt
  | case2 l hstop =>
    -- The current token was read, so it is not the end of the list that ends the spacing.
    have hspacing : l.current.1.isSpacing = false :=
      Bool.eq_false_iff.mpr fun hspacing => hstop ⟨hspacing, h.index_lt_size_current⟩
    rw [Lookahead.skipSpacing, if_neg hstop]
    exact ⟨Nat.le_refl _, ⟨_, h.getElem?_current, hspacing⟩,
      fun j hle hlt => absurd hle (Nat.not_le.mpr hlt)⟩

theorem lastStop?_eq (h : l.ReadsFrom tokens) :
    l.lastStop? = if l.index = 0 then some 0 else tokens[l.index - 1]?.map (·.stop) := by
  rw [lastStop?]
  split
  · rfl
  · have hread := h.read
    rw [getElem?_buffer (by omega), h.whole]

/-- A cursor that reads from a list answers what its index into the list tells. -/
theorem isIndexInto (htokens : Token.EndsOnce tokens) (h : l.ReadsFrom tokens) :
    l.IsIndexInto tokens := by
  refine ⟨h.inside, fun offset k hk => ?_, h.getElem?_current, index_advance l,
    h.isFirstBehindSpacing htokens, h.lastStop?_eq⟩
  rw [peek_of_toInt? hk]
  refine ⟨fst_peekBy_of_neg, fun hplace => ?_⟩
  have hpeek := getElem?_peekBy h.tokens_ne_nil hplace
  rwa [h.whole] at hpeek

end ReadsFrom

/-! ## What was read does not matter -/

section Congruence

variable (htokens : Token.EndsOnce tokens) (h : l.ReadsFrom tokens) (h' : l'.ReadsFrom tokens)
  (hindex : l.index = l'.index)
include h h' hindex

theorem fst_peekBy_congr (offset : Int) : (l.peekBy offset).1 = (l'.peekBy offset).1 := by
  by_cases hplace : 0 ≤ l.index + offset
  · have hpeek := getElem?_peekBy h.tokens_ne_nil hplace
    have hpeek' := getElem?_peekBy h'.tokens_ne_nil (hindex ▸ hplace)
    rw [h.whole] at hpeek
    rw [h'.whole, ← hindex, hpeek] at hpeek'
    exact Option.some.inj hpeek'
  · rw [fst_peekBy_of_neg (Int.not_le.mp hplace), fst_peekBy_of_neg (hindex ▸ Int.not_le.mp hplace)]

include htokens

/-- Two cursors at one place of a list answer alike and go on alike. -/
theorem call_congr (c : Call) :
    (l.call c).1 = (l'.call c).1 ∧ (l.call c).2.index = (l'.call c).2.index := by
  have hcurrent : l.current.1 = l'.current.1 := fst_peekBy_congr h h' hindex 0
  cases c with
  | peek offset => exact ⟨congrArg some (fst_peekBy_congr h h' hindex offset), hindex⟩
  | advance =>
    refine ⟨congrArg some hcurrent, ?_⟩
    show l.advance.2.index = l'.advance.2.index
    rw [index_advance, index_advance, hcurrent, hindex]
  | skipSpacing =>
    exact ⟨rfl, (h.isFirstBehindSpacing htokens).unique
      (hindex ▸ h'.isFirstBehindSpacing htokens)⟩

theorem answers_congr (calls : List Call) : l.answers calls = l'.answers calls := by
  induction calls generalizing l l' with
  | nil => rfl
  | cons c rest ih =>
    obtain ⟨hanswer, hnext⟩ := call_congr htokens h h' hindex c
    have hc := h.call htokens c
    have hc' := h'.call htokens c
    rw [answers, answers, ih hc hc' hnext, hanswer, hc.lastStop?_eq, hc'.lastStop?_eq, hnext]

/-- Calls that only look can be left out. -/
theorem index_after_filter (calls : List Call) :
    (l.after calls).index = (l'.after (calls.filter Call.moves)).index := by
  induction calls generalizing l l' with
  | nil => exact hindex
  | cons c rest ih =>
    cases hc : c.moves with
    | false =>
      rw [List.filter_cons_of_neg (by simp [hc])]
      cases c with
      | peek offset => exact ih (h.peekBy offset) h' hindex
      | advance | skipSpacing => cases hc
    | true =>
      rw [List.filter_cons_of_pos hc]
      exact ih (h.call htokens c) (h'.call htokens c) (call_congr htokens h h' hindex c).2

end Congruence

theorem index_le_call (htokens : Token.EndsOnce tokens) (h : l.ReadsFrom tokens) (c : Call) :
    l.index ≤ (l.call c).2.index := by
  cases c with
  | peek offset => exact Nat.le_refl _
  | advance =>
    show l.index ≤ l.advance.2.index
    rw [index_advance]
    split
    · exact Nat.le_refl _
    · exact Nat.le_succ _
  | skipSpacing => exact (h.isFirstBehindSpacing htokens).le

theorem index_le_after (htokens : Token.EndsOnce tokens) (h : l.ReadsFrom tokens)
    (calls : List Call) : l.index ≤ (l.after calls).index := by
  induction calls generalizing l with
  | nil => exact Nat.le_refl _
  | cons c rest ih => exact Nat.le_trans (index_le_call htokens h c) (ih (h.call htokens c))

/-! ## The cursor over the whole list -/

namespace ReadsFrom

/-- The whole list, split at the place. -/
theorem cursor_eq (htokens : Token.EndsOnce tokens) (h : l.ReadsFrom tokens) :
    l.cursor = { passed := (tokens.take l.index).reverse, ahead := tokens.dropLast.drop l.index,
                 final := tokens.getLast?.getD .endOfInput, index := l.index } := by
  have hinside := h.inside
  have htake : tokens.dropLast.take l.index = tokens.take l.index := by
    rw [List.dropLast_eq_take, List.take_take, Nat.min_eq_left (by omega)]
  have hlength : (tokens.dropLast.take l.index).length = l.index := by
    rw [htake, List.length_take, Nat.min_eq_left (Nat.le_of_lt hinside)]
  have hbefore : ∀ t ∈ tokens.dropLast.take l.index, t.kind ≠ .endOfFile := by
    intro t ht hkind
    obtain ⟨i, hi⟩ := List.getElem?_of_mem ht
    have hlt : i < (tokens.dropLast.take l.index).length := (List.getElem?_eq_some_iff.mp hi).1
    rw [htake, List.getElem?_take_of_lt (by omega)] at hi
    have hlast := (htokens.kind_iff i t hi).mp hkind
    omega
  have hpast := Cursor.advanceBy_length (c := Cursor.ofTokens tokens)
    (List.take_append_drop l.index tokens.dropLast).symm hbefore
  rw [hlength] at hpast
  rw [cursor, h.whole, hpast, Cursor.past, hlength, htake]
  simp [Cursor.ofTokens]

/-- A look from the cursor over the whole list finds the same. -/
theorem peek_cursor (htokens : Token.EndsOnce tokens) (h : l.ReadsFrom tokens) (offset : Int) :
    l.cursor.peek offset = (l.peekBy offset).1 := by
  have hinside := h.inside
  rw [h.cursor_eq htokens]
  cases offset with
  | ofNat n =>
    have hpeek := getElem?_peekBy h.tokens_ne_nil (show 0 ≤ (l.index : Int) + n by omega)
    rw [h.whole] at hpeek
    show ((tokens.dropLast.drop l.index)[n]?).getD (tokens.getLast?.getD .endOfInput) = _
    rw [List.getElem?_drop, List.dropLast_eq_take]
    by_cases hlt : l.index + n < tokens.length - 1
    · rw [Nat.min_eq_left (by omega), Int.toNat_add (by omega) (by omega)] at hpeek
      rw [List.getElem?_take_of_lt hlt]
      exact congrArg (Option.getD · _) hpeek
    · rw [Nat.min_eq_right (by omega), ← List.getLast?_eq_getElem?] at hpeek
      rw [List.getElem?_eq_none (by rw [List.length_take]; omega), Option.getD_none, hpeek]
      rfl
  | negSucc m =>
    show ((tokens.take l.index).reverse[m]?).getD .endOfInput = _
    by_cases hlt : m < l.index
    · have hpeek := getElem?_peekBy h.tokens_ne_nil (show 0 ≤ (l.index : Int) + Int.negSucc m by omega)
      rw [h.whole, Nat.min_eq_left (by omega)] at hpeek
      have hplace : l.index - 1 - m = ((l.index : Int) + Int.negSucc m).toNat := by omega
      rw [List.getElem?_reverse (by rw [List.length_take]; omega), List.length_take,
        Nat.min_eq_left (by omega), List.getElem?_take_of_lt (by omega), hplace, hpeek]
      rfl
    · rw [List.getElem?_eq_none (by rw [List.length_reverse, List.length_take]; omega),
        fst_peekBy_of_neg (by omega)]
      rfl

theorem current_cursor (htokens : Token.EndsOnce tokens) (h : l.ReadsFrom tokens) :
    l.cursor.current = l.current.1 := by
  rw [← Cursor.lookahead_zero]
  exact h.peek_cursor htokens 0

theorem terminated_cursor (htokens : Token.EndsOnce tokens) (h : l.ReadsFrom tokens) :
    l.cursor.Terminated := by
  have hlast : tokens.getLast? = some (tokens.getLast htokens.ne_nil) :=
    List.getLast?_eq_some_getLast htokens.ne_nil
  have hlength := List.length_pos_iff.mpr htokens.ne_nil
  rw [h.cursor_eq htokens]
  show (tokens.getLast?.getD .endOfInput).kind = .endOfFile
  rw [hlast]
  rw [List.getLast?_eq_getElem?] at hlast
  exact (htokens.kind_iff _ _ hlast).mpr (by omega)

theorem cursor_advance (htokens : Token.EndsOnce tokens) (h : l.ReadsFrom tokens) :
    l.advance.2.cursor = l.cursor.advance := by
  rw [cursor, tokens_advance, index_advance]
  split
  · next hkind => rw [Cursor.advance, h.current_cursor htokens, if_pos hkind, cursor]
  · rw [Cursor.advanceBy_add]
    rfl

theorem cursor_skipSpacing (htokens : Token.EndsOnce tokens) (h : l.ReadsFrom tokens) :
    l.skipSpacing.cursor = l.cursor.skipSpacing := by
  have hcurrent : ∀ {l : Lookahead P}, l.current.2.cursor = l.cursor := fun {l} => by
    rw [cursor, cursor, tokens_current, index_current]
  induction l using Lookahead.skipSpacing.induct with
  | case1 l hspacing ih =>
    have hkind := Token.kind_ne_endOfFile_of_isSpacing hspacing.1
    rw [← h.current_cursor htokens] at hkind hspacing
    have hahead := Cursor.ahead_eq_cons (h.terminated_cursor htokens) hkind
    rw [Lookahead.skipSpacing, if_pos (h.current_cursor htokens ▸ hspacing), ih (h.advance htokens),
      h.cursor_advance htokens]
    exact (Cursor.skipWhile_of_pos hahead hspacing.1 hkind).symm
  | case2 l hstop =>
    have hspacing : l.cursor.current.isSpacing = false := by
      rw [h.current_cursor htokens]
      exact Bool.eq_false_iff.mpr fun hspacing => hstop ⟨hspacing, h.index_lt_size_current⟩
    rw [Lookahead.skipSpacing, if_neg hstop, hcurrent, Cursor.skipSpacing,
      Cursor.countWhile_of_neg hspacing]
    rfl

theorem cursor_after (htokens : Token.EndsOnce tokens) (h : l.ReadsFrom tokens)
    (calls : List Call) : (l.after calls).cursor = calls.foldl callWhole l.cursor := by
  induction calls generalizing l with
  | nil => rfl
  | cons c rest ih =>
    have hcall : (l.call c).2.cursor = callWhole l.cursor c := by
      cases c with
      | peek offset => exact congrArg (Cursor.advanceBy · _) (congrArg _ (tokens_peekBy l offset))
      | advance => exact h.cursor_advance htokens
      | skipSpacing => exact h.cursor_skipSpacing htokens
    rw [List.foldl_cons, ← hcall]
    exact ih (h.call htokens c)

theorem lastStop_cursor (htokens : Token.EndsOnce tokens) (h : l.ReadsFrom tokens) :
    some l.cursor.lastStop = l.lastStop? := by
  have hinside := h.inside
  rw [h.lastStop?_eq, h.cursor_eq htokens]
  show some (((tokens.take l.index).reverse.head?.map (·.stop)).getD 0) = _
  rw [List.head?_reverse, List.getLast?_take]
  split
  · rfl
  · rw [List.getElem?_eq_getElem (by omega)]
    rfl

end ReadsFrom

/-- A cursor that reads its tokens on demand is an index into the list of all tokens, whatever was asked
of it before.  The index never goes back; looks leave no trace, so calls that only look can be left out;
and a cursor that has the whole list, and is asked the same, is in the same place and answers the same. -/
theorem isIndexInto_after (htokens : Token.EndsOnce tokens) (calls : List Call) :
    let l := (ofTokens tokens).after calls
    l.IsIndexInto tokens ∧ (∀ more, l.index ≤ (l.after more).index) ∧
      (∀ more, l.answers more
        = ((ofTokens tokens).after (calls.filter Call.moves)).answers more) ∧
      (l.cursor = calls.foldl callWhole (Cursor.ofTokens tokens) ∧ l.cursor.index = l.index ∧
        (∀ k, l.cursor.peek k = (l.peekBy k).1) ∧ some l.cursor.lastStop = l.lastStop?) := by
  have hstart := ReadsFrom.ofTokens htokens.ne_nil
  have h := hstart.after htokens calls
  refine ⟨h.isIndexInto htokens, index_le_after htokens h, answers_congr htokens h
    (hstart.after htokens _) (index_after_filter htokens hstart hstart rfl calls), ?_, ?_,
    h.peek_cursor htokens, h.lastStop_cursor htokens⟩
  · exact hstart.cursor_after htokens calls
  · rw [h.cursor_eq htokens]

/-- Looks past the end and before the start, between a skip and two steps of which the last is refused. -/
theorem isIndexInto_after_sample :
    let token (kind : TokenKind) (start stop : Nat) (text : Text) : Token := ⟨kind, {}, start, stop, text⟩
    let tokens : List Token := [token .text 0 1 [0x20], token .newLine 1 2 [0x0A],
      token .groupOpen 2 3 [0x7B], token .endOfFile 3 3 []]
    let calls : List Call := [.peek 9, .skipSpacing, .peek (-5), .advance, .advance]
    let l := (ofTokens tokens).after calls
    Token.EndsOnce tokens ∧ l.IsIndexInto tokens ∧ l.cursor.index = l.index ∧
      ∀ more, l.answers more = ((ofTokens tokens).after [.skipSpacing, .advance, .advance]).answers more := by
  intro token tokens calls l
  have htokens : Token.EndsOnce tokens := by
    refine ⟨List.cons_ne_nil _ _, fun i t ht => ?_⟩
    match i, ht with
    | 0, ht | 1, ht | 2, ht | 3, ht => cases ht; simp [tokens, token]
  obtain ⟨hindex, -, hlooks, -, hplace, -⟩ := isIndexInto_after htokens calls
  exact ⟨htokens, hindex, hplace, hlooks⟩

end Lookahead

end LatexMarkdown
