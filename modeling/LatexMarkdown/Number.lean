import LatexMarkdown.Text
/-!
  Numbers of 53 bits.

  A finite number is `mantissa * 2 ^ exponent`, kept in the one form in which the mantissa has
  53 bits or the exponent is the least there is.  `Number.ofRatio` rounds a quotient to the nearest
  number, a tie to the one with an even mantissa; everything else is read through it.
-/
namespace LatexMarkdown

/-- A binary floating-point number; zero has one sign only. -/
inductive Number
  | nan
  | infinite (negative : Bool)
  | finite (mantissa : Int) (exponent : Int)
  deriving DecidableEq, Repr

namespace Number

/-- Bits of a mantissa. -/
def precision : Nat := 53

/-- The least exponent. -/
def minExponent : Int := -1074

/-- The greatest exponent. -/
def maxExponent : Int := 971

/-- Zero. -/
def zero : Number := .finite 0 minExponent

/-- `n * base ^ exponent` as a quotient of natural numbers. -/
def scaled (n base : Nat) (exponent : Int) : Nat × Nat :=
  if 0 ≤ exponent then (n * base.pow exponent.toNat, 1) else (n, base.pow (-exponent).toNat)

/-- The integer nearest to `n / d`, a tie to the even one. -/
def roundDiv (n d : Nat) : Nat :=
  let q := n / d
  let twice := 2 * (n % d)
  if twice < d then q
  else if d < twice then q + 1
  else if q % 2 = 0 then q else q + 1

/-- The exponent of two at or below a positive quotient `n / d`. -/
def floorLog (n d : Nat) : Int :=
  let l : Int := (Nat.log2 n : Int) - Nat.log2 d
  let (m, e) := scaled d 2 l
  if m ≤ n * e then l else l - 1

/-- The number nearest to `n / d`, a tie to the one with an even mantissa; past the greatest number
infinity. -/
def ofRatio (negative : Bool) (n d : Nat) : Number :=
  if n = 0 then zero
  else
    let e := max (floorLog n d - (precision - 1)) minExponent
    let (num, scale) := scaled n 2 (-e)
    let m := roundDiv num (d * scale)
    -- Rounding up may carry into a further bit.
    let (m, e) := if m = Nat.pow 2 precision then (Nat.pow 2 (precision - 1), e + 1) else (m, e)
    if maxExponent < e then .infinite negative
    else .finite (if negative then -(m : Int) else m) e

/-- The number nearest to an integer. -/
def ofInt (n : Int) : Number := ofRatio (n < 0) n.natAbs 1

/-- The number nearest to `digits * 10 ^ exponent`.  Exponents that only zero or infinity can answer
are not worked out. -/
def ofDecimal (negative : Bool) (digits : Nat) (exponent : Int) : Number :=
  let size : Int := (Nat.toDigits 10 digits).length + exponent
  if digits = 0 ∨ size < -330 then zero
  else if 310 < size then .infinite negative
  else
    let (n, d) := scaled digits 10 exponent
    ofRatio negative n d

/-- The value when it is an integer. -/
def toInt? : Number → Option Int
  | .nan => none
  | .infinite _ => none
  | .finite m e =>
    if 0 ≤ e then some (m * Nat.pow 2 e.toNat)
    else
      let d : Int := Nat.pow 2 (-e).toNat
      if m % d = 0 then some (m / d) else none

end Number

end LatexMarkdown
