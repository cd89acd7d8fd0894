import LatexMarkdown.Number.Arithmetic
import LatexMarkdown.Token.Cursor
/-!
  A cursor over tokens that are read on demand.

  Looking ahead reads tokens as far as it has to, and what was read stays read.  At whole offsets
  that cannot be told from a cursor over the whole list; between two places it can.
-/
namespace LatexMarkdown

/-- The tokens that were read, those still to be read, and how many were passed. -/
structure Lookahead (P : Type := Nat) where
  /-- The tokens read so far. -/
  buffer : Array (Token P) := #[]
  /-- The tokens not read yet. -/
  unread : List (Token P)
  /-- How many tokens were passed. -/
  index : Nat := 0
  deriving DecidableEq, Repr

namespace Lookahead

variable {P : Type}

/-- Nothing read yet of a list. -/
def ofTokens (tokens : List (Token P)) : Lookahead P := { unread := tokens }

/-- The list, as far as it was read and from there on. -/
def tokens (l : Lookahead P) : List (Token P) := l.buffer.toList ++ l.unread

/-! ## Reading -/

/-- Moves tokens into a buffer while one of its size is too small, or until there are none left. -/
def fill (tooSmall : Nat → Bool) (buffer : Array (Token P)) :
    List (Token P) → Array (Token P) × List (Token P)
  | [] => (buffer, [])
  | t :: rest =>
    if tooSmall buffer.size then fill tooSmall (buffer.push t) rest else (buffer, t :: rest)

/-- Reads on while so many tokens read are too few, or until the list ends. -/
def readWhile (tooFew : Nat → Bool) (l : Lookahead P) : Lookahead P :=
  let (buffer, unread) := fill tooFew l.buffer l.unread
  { l with buffer, unread }

theorem toList_fill (tooSmall : Nat → Bool) (buffer : Array (Token P)) (ts : List (Token P)) :
    (fill tooSmall buffer ts).1.toList ++ (fill tooSmall buffer ts).2 = buffer.toList ++ ts := by
  induction ts generalizing buffer with
  | nil => rfl
  | cons t rest ih =>
    rw [fill]
    split
    · rw [ih, Array.toList_push, List.append_assoc, List.singleton_append]
    · rfl

/-- Reading moves tokens from one part of the list to the other. -/
@[simp] theorem tokens_readWhile (tooFew : Nat → Bool) (l : Lookahead P) :
    (l.readWhile tooFew).tokens = l.tokens := toList_fill tooFew l.buffer l.unread

variable [OfNat P 0]

/-- The cursor over the whole list at the same place. -/
def cursor (l : Lookahead P) : Cursor P := (Cursor.ofTokens l.tokens).advanceBy l.index

/-! ## Looking -/

/-- The token at a place, or the last one read when the place is past that; before the start of the
list the empty end-of-file token. -/
def tokenAt (l : Lookahead P) (place : Int) : Token P :=
  if place < 0 then .endOfInput
  else l.buffer[min place.toNat (l.buffer.size - 1)]?.getD .endOfInput

/-- The token so many whole places on, or back when that is negative. -/
def peekBy (l : Lookahead P) (offset : Int) : Token P × Lookahead P :=
  let place := l.index + offset
  let l := l.readWhile fun size => (size : Int) ≤ place
  (l.tokenAt place, l)

/-- The token `offset` places on.  Between two places stands the last token that was read, when none
was read further on, and else the empty end-of-file token. -/
def peek (l : Lookahead P) (offset : Number) : Token P × Lookahead P :=
  match offset.toInt? with
  -- No list is so long that rounding the sum of two whole numbers could be seen.
  | some offset => l.peekBy offset
  | none =>
    let place := Number.ofNat l.index + offset
    let l := l.readWhile fun size => Number.ofNat size ≤ place
    let last : Int := l.buffer.size - 1
    (if Number.ofInt last ≤ place then l.tokenAt last
     else (place.toInt?.map l.tokenAt).getD .endOfInput, l)

/-- The current token. -/
def current (l : Lookahead P) : Token P × Lookahead P := l.peekBy 0

theorem peek_of_toInt? {l : Lookahead P} {offset : Number} {k : Int} (h : offset.toInt? = some k) :
    l.peek offset = l.peekBy k := by
  rw [peek, h]

@[simp] theorem tokens_peekBy (l : Lookahead P) (offset : Int) :
    (l.peekBy offset).2.tokens = l.tokens := tokens_readWhile _ l

@[simp] theorem index_current (l : Lookahead P) : l.current.2.index = l.index := rfl

@[simp] theorem tokens_current (l : Lookahead P) : l.current.2.tokens = l.tokens := tokens_peekBy l 0

/-! ## Moving on -/

/-- The current token and the place past it, unless that is the end-of-file token. -/
def advance (l : Lookahead P) : Token P × Lookahead P :=
  let (token, l) := l.current
  (token, if token.kind = .endOfFile then l else { l with index := l.index + 1 })

@[simp] theorem tokens_advance (l : Lookahead P) : l.advance.2.tokens = l.tokens := by
  rw [← tokens_current l]
  simp only [advance]
  split <;> rfl

theorem index_advance (l : Lookahead P) :
    l.advance.2.index = if l.current.1.kind = .endOfFile then l.index else l.index + 1 := by
  simp only [advance]
  split <;> rfl

/-- Past blank text and line breaks.  It is the end of the list that ends them where nothing else does. -/
def skipSpacing (l : Lookahead P) : Lookahead P :=
  if l.current.1.isSpacing ∧ l.index < l.current.2.buffer.size then skipSpacing l.advance.2
  else l.current.2
  termination_by l.tokens.length - l.index
  decreasing_by
    next h =>
    have hkind := Token.kind_ne_endOfFile_of_isSpacing h.1
    have hsize : l.current.2.buffer.size ≤ l.tokens.length := by
      rw [← tokens_current l, tokens, List.length_append, Array.length_toList]
      exact Nat.le_add_right _ _
    rw [tokens_advance, index_advance, if_neg hkind]
    omega

/-- Where the token passed last ends, 0 at the start of the list.  A list without an end-of-file token
can be passed by more tokens than it has, and then there is none. -/
def lastStop? (l : Lookahead P) : Option P :=
  if l.index = 0 then some 0 else l.buffer[l.index - 1]?.map (·.stop)

end Lookahead

end LatexMarkdown
