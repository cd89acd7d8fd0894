import LatexMarkdown.Number.Arithmetic
import LatexMarkdown.Token.Lexeme
/-!
  The classes of code units that scanning goes by, asked about a number.

  Each class but the letters is a list of single codes.  The letters are two ranges, and a number
  between two neighbouring codes of a range lies in the range as well.
-/
namespace LatexMarkdown

/-- A class of code units. -/
inductive CodeClass
  | lineBreak
  | lineSpace
  | sourceSpace
  | letter
  | escapable
  deriving DecidableEq, Repr

namespace CodeClass

/-- All classes. -/
def all : List CodeClass := [lineBreak, lineSpace, sourceSpace, letter, escapable]

/-- Is a unit in the class? -/
def hasUnit : CodeClass → CodeUnit → Bool
  | lineBreak => CodeUnit.isLineBreak
  | lineSpace => CodeUnit.isLineSpace
  | sourceSpace => CodeUnit.isSourceSpace
  | letter => CodeUnit.isLetter
  | escapable => CodeUnit.isEscapable

/-- Is an integer the code of a unit in the class? -/
def hasCode (c : CodeClass) (code : Int) : Bool :=
  0 ≤ code && code < UInt16.size && c.hasUnit code.toNat.toUInt16

/-- Is a number in the class?  One that is no code counts as a letter between two letters. -/
def hasNumber (c : CodeClass) (n : Number) : Bool :=
  match n.floor?, n.ceil? with
  | some low, some high => (low == high || c == letter) && c.hasCode low && c.hasCode high
  | _, _ => false

theorem hasCode_toNat (c : CodeClass) (u : CodeUnit) : c.hasCode u.toNat = c.hasUnit u := by
  have h : (u.toNat : Int) < UInt16.size := Int.ofNat_lt.mpr u.toNat_lt
  simp only [hasCode, Int.natCast_nonneg, decide_true, h, Bool.true_and, Int.toNat_natCast]
  rw [Nat.toUInt16_eq, UInt16.ofNat_toNat]

end CodeClass

end LatexMarkdown
