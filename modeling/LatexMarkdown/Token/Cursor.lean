import LatexMarkdown.Token
/-!
  A place in a token list, with lookahead in both directions.

  The cursor is a zipper: the tokens behind it, nearest first, those from the current one on, and
  the last token of the list, on which the cursor comes to rest.  `Cursor.Reaches` says that one
  cursor is a number of steps behind another; whatever reads tokens moves a cursor along it.
-/
namespace LatexMarkdown

/-- A token list and a place in it. -/
structure Cursor (P : Type := Nat) where
  /-- Tokens before the current one, nearest first. -/
  passed : List (Token P) := []
  /-- The tokens from the current one up to the last, that one excluded. -/
  ahead : List (Token P)
  /-- The last token of the list. -/
  final : Token P
  /-- How many tokens were passed. -/
  index : Nat := 0
  deriving DecidableEq, Repr

namespace Cursor

variable {P : Type}

/-- At the first token of a list; the empty list is taken for an empty end-of-file token. -/
def ofTokens [OfNat P 0] (tokens : List (Token P)) : Cursor P :=
  { ahead := tokens.dropLast, final := tokens.getLast?.getD .endOfInput }

/-- The token `n` places on; past the end of the list its last one. -/
def lookahead (c : Cursor P) (n : Nat) : Token P := c.ahead[n]?.getD c.final

/-- The current token. -/
def current (c : Cursor P) : Token P := c.ahead.head?.getD c.final

/-- The token `offset` places on, or back when it is negative; before the start of the list the
empty end-of-file token. -/
def peek [OfNat P 0] (c : Cursor P) (offset : Int) : Token P :=
  match offset with
  | .ofNat n => c.lookahead n
  | .negSucc n => c.passed[n]?.getD .endOfInput

/-- Past the current token, unless that is the end-of-file token. -/
def advance (c : Cursor P) : Cursor P :=
  if c.current.kind = .endOfFile then c
  else { c with passed := c.current :: c.passed, ahead := c.ahead.tail, index := c.index + 1 }

/-- Past `n` tokens. -/
def advanceBy (c : Cursor P) : Nat → Cursor P
  | 0 => c
  | n + 1 => c.advance.advanceBy n

/-- Where the token passed last ends; 0 at the start of the list. -/
def lastStop [OfNat P 0] (c : Cursor P) : P := (c.passed.head?.map (·.stop)).getD 0

/-- How many tokens from the current one on satisfy `p`. -/
def countWhile (p : Token P → Bool) (c : Cursor P) : Nat := (c.ahead.takeWhile p).length

/-- Past blank text and line breaks, blank lines included. -/
def skipSpacing (c : Cursor P) : Cursor P := c.advanceBy (c.countWhile Token.isSpacing)

/-- The list ends in an end-of-file token. -/
def Terminated (c : Cursor P) : Prop := c.final.kind = .endOfFile

theorem terminated_ofTokens [OfNat P 0] {tokens : List (Token P)} {t : Token P}
    (h : tokens.getLast? = some t)
    (hk : t.kind = .endOfFile) : (ofTokens tokens).Terminated := by
  simp [Terminated, ofTokens, h, hk]

/-! ## Moving on -/

@[simp] theorem lookahead_zero (c : Cursor P) : c.lookahead 0 = c.current := by
  simp [lookahead, current, List.head?_eq_getElem?]

@[simp] theorem advanceBy_zero (c : Cursor P) : c.advanceBy 0 = c := rfl

theorem advanceBy_succ (c : Cursor P) (n : Nat) : c.advanceBy (n + 1) = c.advance.advanceBy n := rfl

theorem advanceBy_add (c : Cursor P) (m n : Nat) :
    c.advanceBy (m + n) = (c.advanceBy m).advanceBy n := by
  induction m generalizing c with
  | zero => simp
  | succ m ih => rw [Nat.succ_add, advanceBy_succ, ih, advanceBy_succ]

@[simp] theorem final_advance (c : Cursor P) : c.advance.final = c.final := by
  unfold advance
  split <;> rfl

theorem length_ahead_advance_le (c : Cursor P) : c.advance.ahead.length ≤ c.ahead.length := by
  unfold advance
  split
  · exact Nat.le_refl _
  · simp

theorem ahead_ne_nil {c : Cursor P} (h : c.Terminated) (hk : c.current.kind ≠ .endOfFile) :
    c.ahead ≠ [] := by
  intro hnil
  exact hk (by simpa [current, hnil, Terminated] using h)

theorem length_ahead_advance_lt {c : Cursor P} (h : c.Terminated)
    (hk : c.current.kind ≠ .endOfFile) : c.advance.ahead.length < c.ahead.length := by
  have hne := List.length_pos_iff.mpr (ahead_ne_nil h hk)
  simp only [advance, hk, if_false, List.length_tail]
  omega

/-- The second cursor is a number of steps ahead of the first. -/
def Reaches (c d : Cursor P) : Prop := ∃ n, d = c.advanceBy n

namespace Reaches

theorem refl (c : Cursor P) : c.Reaches c := ⟨0, rfl⟩

theorem advance (c : Cursor P) : c.Reaches c.advance := ⟨1, rfl⟩

theorem advanceBy (c : Cursor P) (n : Nat) : c.Reaches (c.advanceBy n) := ⟨n, rfl⟩

theorem trans {c d e : Cursor P} (h : c.Reaches d) (h' : d.Reaches e) : c.Reaches e := by
  obtain ⟨m, rfl⟩ := h
  obtain ⟨n, rfl⟩ := h'
  exact ⟨m + n, (advanceBy_add c m n).symm⟩

theorem final_eq {c d : Cursor P} (h : c.Reaches d) : d.final = c.final := by
  obtain ⟨n, rfl⟩ := h
  induction n generalizing c with
  | zero => rfl
  | succ n ih => rw [advanceBy_succ, ih, final_advance]

theorem terminated {c d : Cursor P} (h : c.Reaches d) (hc : c.Terminated) : d.Terminated := by
  rw [Terminated, h.final_eq]
  exact hc

theorem length_ahead_le {c d : Cursor P} (h : c.Reaches d) : d.ahead.length ≤ c.ahead.length := by
  obtain ⟨n, rfl⟩ := h
  induction n generalizing c with
  | zero => exact Nat.le_refl _
  | succ n ih => exact Nat.le_trans ih (length_ahead_advance_le c)

end Reaches

theorem reaches_skipSpacing (c : Cursor P) : c.Reaches c.skipSpacing := ⟨_, rfl⟩

/-! ## Places in the list -/

variable {c : Cursor P} {t : Token P} {ts : List (Token P)}

theorem current_of_ahead (h : c.ahead = t :: ts) : c.current = t := by
  rw [current, h]
  rfl

theorem current_of_ahead_nil (h : c.ahead = []) : c.current = c.final := by
  rw [current, h]
  rfl

/-- Past a token of the list. -/
theorem advance_of_ahead (h : c.ahead = t :: ts) (hk : t.kind ≠ .endOfFile) :
    c.advance = { c with passed := t :: c.passed, ahead := ts, index := c.index + 1 } := by
  rw [advance, current_of_ahead h, if_neg hk, h]
  rfl

theorem ahead_advance (h : c.ahead = t :: ts) (hk : t.kind ≠ .endOfFile) :
    c.advance.ahead = ts := by
  rw [advance_of_ahead h hk]

/-! ## Skipping -/

/-- A token that is skipped is skipped like those behind it. -/
theorem skipWhile_of_pos {p : Token P → Bool} (h : c.ahead = t :: ts) (ht : p t = true)
    (hk : t.kind ≠ .endOfFile) :
    c.advanceBy (c.countWhile p) = c.advance.advanceBy (c.advance.countWhile p) := by
  have hcount : c.countWhile p = c.advance.countWhile p + 1 := by
    rw [countWhile, countWhile, ahead_advance h hk, h, List.takeWhile_cons, if_pos ht,
      List.length_cons]
  rw [hcount, advanceBy_succ]

/-- Where the current token is not skipped, nothing is. -/
theorem countWhile_of_neg {p : Token P → Bool} (h : p c.current = false) : c.countWhile p = 0 := by
  cases ha : c.ahead with
  | nil => rw [countWhile, ha]; rfl
  | cons t ts =>
    rw [current_of_ahead ha] at h
    rw [countWhile, ha, List.takeWhile_cons, h]
    rfl

theorem skipWhile_of_neg {p : Token P → Bool} (h : p c.current = false) :
    c.advanceBy (c.countWhile p) = c := by
  rw [countWhile_of_neg h, advanceBy_zero]

/-- Spacing that is current is skipped like the spacing behind it. -/
theorem skipSpacing_of_isSpacing (h : c.ahead = t :: ts) (hs : t.isSpacing = true) :
    c.skipSpacing = c.advance.skipSpacing :=
  skipWhile_of_pos h hs (Token.kind_ne_endOfFile_of_isSpacing hs)

theorem skipSpacing_of_not_isSpacing (h : c.ahead = t :: ts) (hs : t.isSpacing = false) :
    c.skipSpacing = c :=
  skipWhile_of_neg ((current_of_ahead h).symm ▸ hs)

theorem skipSpacing_of_ahead_nil (h : c.ahead = []) : c.skipSpacing = c := by
  rw [skipSpacing, countWhile, h]
  rfl

/-- Nothing is skipped where the current token is no spacing. -/
theorem skipSpacing_eq_self (h : c.current.isSpacing = false) : c.skipSpacing = c :=
  skipWhile_of_neg h

/-- Behind the spacing stands none. -/
theorem isSpacing_current_skipSpacing (h : c.Terminated) :
    c.skipSpacing.current.isSpacing = false := by
  induction ha : c.ahead generalizing c with
  | nil =>
    have hk : c.current.kind = .endOfFile := (current_of_ahead_nil ha).symm ▸ h
    rw [skipSpacing_of_ahead_nil ha]
    simp [Token.isSpacing, Token.isBlankText, hk]
  | cons t ts ih =>
    cases ht : t.isSpacing with
    | false => rw [skipSpacing_of_not_isSpacing ha ht, current_of_ahead ha, ht]
    | true =>
      have hadvance : c.advance.ahead = ts :=
        ahead_advance ha (Token.kind_ne_endOfFile_of_isSpacing ht)
      rw [skipSpacing_of_isSpacing ha ht]
      exact ih ((Reaches.advance c).terminated h) hadvance

end Cursor

end LatexMarkdown
