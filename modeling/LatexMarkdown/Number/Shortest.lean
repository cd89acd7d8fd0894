import LatexMarkdown.Number
/-!
  The text of a number: the fewest digits that read back.

  On the grids of 1, 2, … 17 digits the two neighbours of the value are tried; the first grid with a
  neighbour that rounds to the number wins, of two such neighbours the nearer, and of two equally
  near the even one.  From `10 ^ 21` and below `10 ^ -6` the text has an exponent.
-/
namespace LatexMarkdown

namespace Number

/-- Decimal digits of a number: `digits * 10 ^ exponent`. -/
structure Digits where
  digits : Nat
  exponent : Int
  deriving DecidableEq, Repr

/-- Without trailing zeros. -/
def Digits.strip : Nat → Digits → Digits
  | 0, d => d
  | fuel + 1, d =>
    if d.digits % 10 = 0 ∧ d.digits ≠ 0 then strip fuel ⟨d.digits / 10, d.exponent + 1⟩ else d

/-- How many decimal digits the integer part of a positive quotient has, or, negative or zero, one
less than the place of its first digit after the point. -/
def magnitude (n d : Nat) : Int :=
  if d ≤ n then (Nat.toDigits 10 (n / d)).length
  else
    let reciprocal := (d - 1) / n
    1 - ((Nat.toDigits 10 reciprocal).length : Int)

/-- The better neighbour of `n / d` on the grid of multiples of `10 ^ exponent`, when one of the
two rounds to `x`. -/
def neighbour? (x : Number) (n d : Nat) (exponent : Int) : Option Digits :=
  let (up, down) := scaled 1 10 (-exponent)
  let num := n * up
  let den := d * down
  let low := num / den
  let back (s : Nat) : Bool := let (a, b) := scaled s 10 exponent; ofRatio false a b = x
  -- Twice the distance from the lower neighbour, to be held against the width of the grid.
  let remainder := 2 * (num % den)
  match back low, back (low + 1) with
  | true, false => some ⟨low, exponent⟩
  | false, true => some ⟨low + 1, exponent⟩
  | true, true =>
    if remainder < den ∨ (remainder = den ∧ low % 2 = 0) then some ⟨low, exponent⟩
    else some ⟨low + 1, exponent⟩
  | false, false => none

/-- The shortest digits of the positive number `m * 2 ^ e`. -/
def shortest (m : Nat) (e : Int) : Digits :=
  let (n, d) := scaled m 2 e
  let size := magnitude n d
  let hit := (List.range 17).findSome? fun k : Nat =>
    neighbour? (.finite m e) n d (size - (k + 1 : Nat))
  (hit.getD ⟨m, 0⟩).strip 400

/-- `n` zeros. -/
def zeros (n : Nat) : Text := List.replicate n 0x30

/-- The text of digits. -/
def Digits.text (d : Digits) : Text :=
  let s := Text.ofNat d.digits
  let k : Int := s.length
  -- Where the decimal point falls, counted from the first digit.
  let point := k + d.exponent
  if k ≤ point ∧ point ≤ 21 then s ++ zeros (point - k).toNat
  else if 0 < point ∧ point ≤ 21 then s.take point.toNat ++ "." ++ s.drop point.toNat
  else if -6 < point ∧ point ≤ 0 then "0." ++ zeros (-point).toNat ++ s
  else
    let power := point - 1
    let fraction : Text := if s.length = 1 then [] else "." ++ s.tail
    s.take 1 ++ fraction ++ (if power < 0 then "e-" else "e+") ++ Text.ofNat power.natAbs

/-- The text of a number. -/
def text : Number → Text
  | .nan => "NaN"
  | .infinite negative => if negative then "-Infinity" else "Infinity"
  | .finite m e =>
    if m = 0 then "0"
    else (if m < 0 then "-" else "") ++ (shortest m.natAbs e).text

end Number

end LatexMarkdown
