import LatexMarkdown.Number
import LatexMarkdown.Text.Blank
/-!
  Numbers read from text.

  `Number.ofText` reads a whole text: a decimal number, an integer after `0x`, `0o` or `0b`, or
  `Infinity`; space around it is ignored and an empty text is zero.  `Number.leadingInt?` reads a
  signed integer off the front of a text and ignores what follows.
-/
namespace LatexMarkdown

/-- The value of a digit of bases up to 16. -/
def CodeUnit.digitValue (u : CodeUnit) : Nat :=
  if u.isDigit then u.toNat - 0x30
  else if 0x61 ≤ u && u ≤ 0x66 then u.toNat - 0x61 + 10
  else if 0x41 ≤ u && u ≤ 0x46 then u.toNat - 0x41 + 10
  else 16

namespace Number

/-- The value of digits in a base. -/
def ofDigits (base : Nat) (digits : Text) : Nat :=
  digits.foldl (fun n u => n * base + u.digitValue) 0

/-- A sign at the front of a text, and the rest: is it a minus? -/
def readSign (t : Text) : Bool × Text :=
  match t with
  | 0x2B :: rest => (false, rest)
  | 0x2D :: rest => (true, rest)
  | _ => (false, t)

/-- The base that a two-unit mark at the front of a text announces, and the digits behind it. -/
def readBase? (t : Text) : Option (Nat × Text) :=
  match t with
  | 0x30 :: mark :: digits =>
    if mark = 0x78 ∨ mark = 0x58 then some (16, digits)
    else if mark = 0x6F ∨ mark = 0x4F then some (8, digits)
    else if mark = 0x62 ∨ mark = 0x42 then some (2, digits)
    else none
  | _ => none

/-- An exponent that makes up the whole text: nothing, or a letter, a sign and digits. -/
def readExponent? (t : Text) : Option Int :=
  match t with
  | [] => some 0
  | letter :: rest =>
    let (negative, digits) := readSign rest
    if (letter = 0x65 ∨ letter = 0x45) ∧ digits ≠ [] ∧ digits.all CodeUnit.isDigit then
      let n : Int := ofDigits 10 digits
      some (if negative then -n else n)
    else none

/-- A decimal number without sign that makes up the whole text. -/
def readDecimal (negative : Bool) (t : Text) : Number :=
  if t = "Infinity" then .infinite negative
  else
    let whole := t.takeWhile CodeUnit.isDigit
    let rest := t.dropWhile CodeUnit.isDigit
    let (fraction, rest) :=
      match rest with
      | 0x2E :: more => (more.takeWhile CodeUnit.isDigit, more.dropWhile CodeUnit.isDigit)
      | _ => ([], rest)
    match readExponent? rest with
    | some exponent =>
      if whole ++ fraction = [] then .nan
      else ofDecimal negative (ofDigits 10 (whole ++ fraction)) (exponent - fraction.length)
    | none => .nan

/-- The number that a text spells. -/
def ofText (text : Text) : Number :=
  let t := text.trim
  if t = [] then zero
  else
    match readBase? t with
    | some (base, digits) =>
      if digits ≠ [] ∧ digits.all (·.digitValue < base) then ofRatio false (ofDigits base digits) 1
      else .nan
    | none =>
      let (negative, rest) := readSign t
      readDecimal negative rest

/-- The signed decimal integer at the front of a text, space before it ignored. -/
def leadingInt? (text : Text) : Option Int :=
  let (negative, rest) := readSign text.trimStart
  let digits := rest.takeWhile CodeUnit.isDigit
  if digits = [] then none
  else
    let n : Int := ofDigits 10 digits
    some (if negative then -n else n)

end Number

end LatexMarkdown
