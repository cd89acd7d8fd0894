import LatexMarkdown.Number
/-!
  Order, sums, whole parts and bits of numbers.

  Two finite numbers are compared and added as multiples of the smaller of their units; a sum is
  rounded once.  What is no number is before, after and equal to nothing.
-/
namespace LatexMarkdown

namespace Number

/-- The number nearest to a natural number. -/
def ofNat (n : Nat) : Number := ofInt n

instance (n : Nat) : OfNat Number n := ⟨ofNat n⟩

instance : Inhabited Number := ⟨nan⟩

/-- `mantissa * 2 ^ exponent` as a multiple of `2 ^ low`, `low` being at most the exponent. -/
def inUnits (mantissa exponent low : Int) : Int := mantissa * Nat.pow 2 (exponent - low).toNat

/-! ## Order -/

/-- Is the first number at most the second? -/
protected def ble : Number → Number → Bool
  | .nan, _ | _, .nan => false
  | .infinite negative, .infinite negative' => negative || !negative'
  | .infinite negative, .finite _ _ => negative
  | .finite _ _, .infinite negative => !negative
  | .finite m e, .finite m' e' =>
    let low := min e e'
    inUnits m e low ≤ inUnits m' e' low

instance : LE Number := ⟨fun a b => a.ble b = true⟩

instance : DecidableLE Number := fun a b => inferInstanceAs (Decidable (a.ble b = true))

/-- Is the first number less than the second? -/
protected def blt (a b : Number) : Bool := a.ble b && !b.ble a

instance : LT Number := ⟨fun a b => a.blt b = true⟩

instance : DecidableLT Number := fun a b => inferInstanceAs (Decidable (a.blt b = true))

protected theorem le_refl {n : Number} (h : n ≠ .nan) : n ≤ n := by
  cases n with
  | nan => exact absurd rfl h
  | infinite negative => cases negative <;> exact rfl
  | finite m e => exact decide_eq_true (Int.le_refl _)

protected theorem le_total {a b : Number} (ha : a ≠ .nan) (hb : b ≠ .nan) : a ≤ b ∨ b ≤ a := by
  cases a with
  | nan => exact absurd rfl ha
  | infinite negative =>
    cases b with
    | nan => exact absurd rfl hb
    | infinite negative' => cases negative <;> cases negative' <;> first | exact .inl rfl | exact .inr rfl
    | finite m e => cases negative <;> first | exact .inl rfl | exact .inr rfl
  | finite m e =>
    cases b with
    | nan => exact absurd rfl hb
    | infinite negative => cases negative <;> first | exact .inl rfl | exact .inr rfl
    | finite m' e' =>
      refine (Int.le_total (inUnits m e (min e e')) (inUnits m' e' (min e e'))).imp ?_ ?_
      · exact fun h => decide_eq_true h
      · exact fun h => decide_eq_true (Int.min_comm e e' ▸ h)

protected theorem not_lt_of_le {a b : Number} (h : a ≤ b) : ¬ b < a := by
  show ¬ (b.ble a && !a.ble b) = true
  rw [show a.ble b = true from h]
  simp

protected theorem lt_iff_not_le {a b : Number} (ha : a ≠ .nan) (hb : b ≠ .nan) :
    a < b ↔ ¬ b ≤ a := by
  show (a.ble b && !b.ble a) = true ↔ ¬ b.ble a = true
  have htotal : a.ble b = true ∨ b.ble a = true := Number.le_total ha hb
  cases hab : a.ble b <;> cases hba : b.ble a <;> simp_all

/-! ## Sums -/

/-- The number with the other sign. -/
protected def neg : Number → Number
  | .nan => .nan
  | .infinite negative => .infinite !negative
  | .finite m e => .finite (-m) e

/-- The number nearest to `mantissa * 2 ^ exponent`. -/
def round (mantissa exponent : Int) : Number :=
  let (n, d) := scaled mantissa.natAbs 2 exponent
  ofRatio (mantissa < 0) n d

/-- The number nearest to the sum of two numbers. -/
protected def add : Number → Number → Number
  | .nan, _ | _, .nan => .nan
  | .infinite negative, .infinite negative' =>
    if negative = negative' then .infinite negative else .nan
  | .infinite negative, .finite _ _ | .finite _ _, .infinite negative => .infinite negative
  | .finite m e, .finite m' e' =>
    let low := min e e'
    round (inUnits m e low + inUnits m' e' low) low

instance : Add Number := ⟨Number.add⟩

instance : Sub Number := ⟨fun a b => a.add b.neg⟩

/-! ## Whole parts -/

/-- The greatest integer that is at most a finite number. -/
def floor? : Number → Option Int
  | .finite m e => some (if 0 ≤ e then m * Nat.pow 2 e.toNat else m / Nat.pow 2 (-e).toNat)
  | .nan | .infinite _ => none

/-- The least integer that a finite number is at most. -/
def ceil? (n : Number) : Option Int := n.neg.floor?.map (-·)

/-- The integer next to a finite number on the side of zero. -/
def truncate? (n : Number) : Option Int := if n ≤ 0 then n.ceil? else n.floor?

/-! ## Bits -/

/-- How many values 32 bits have. -/
def wordSize : Nat := 4294967296

/-- The whole part as a signed integer of 32 bits, higher bits dropped; zero when there is none. -/
def word (n : Number) : Int := (n.truncate?.getD 0).bmod wordSize

/-- A bit of the number's 32 bits. -/
def testBit (n : Number) (i : Nat) : Bool := n.word / Nat.pow 2 i % 2 = 1

/-- The number's 32 bits with one of them set. -/
def setBit (n : Number) (i : Nat) : Number :=
  ofInt (if n.testBit i then n.word else (n.word + Nat.pow 2 i).bmod wordSize)

end Number

end LatexMarkdown
