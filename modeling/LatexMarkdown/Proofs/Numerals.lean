import LatexMarkdown.Number.Arithmetic
import LatexMarkdown.Number.Reading
import Mathlib.Algebra.GroupWithZero.Nat
import Mathlib.Data.List.TakeWhile
/-!
  Numbers that come through unchanged.

  A natural number spelled in decimal digits is read as itself (`Number.leadingInt?_ofNat`), and one
  below two to the 53rd is a number of its own, so nothing is lost by rounding
  (`Number.toInt?_ofInt`): its mantissa is the number moved up to 53 bits.  Nothing is lost either
  where a whole number is rounded up (`Number.ceil?_of_toInt?`).
-/
namespace LatexMarkdown

/-! ## Digits -/

namespace CodeUnit

theorem isDigit_iff {u : CodeUnit} : u.isDigit = true ↔ 0x30 ≤ u.toNat ∧ u.toNat ≤ 0x39 := by
  simp only [isDigit, Bool.and_eq_true, decide_eq_true_eq, UInt16.le_iff_toNat_le]
  exact Iff.rfl

/-- A digit is no space. -/
theorem isUnicodeSpace_of_isDigit {u : CodeUnit} (h : u.isDigit = true) :
    u.isUnicodeSpace = false := by
  rw [isDigit_iff] at h
  rw [← Bool.not_eq_true]
  intro hs
  simp only [isUnicodeSpace, Bool.or_eq_true, Bool.and_eq_true, decide_eq_true_eq, beq_iff_eq,
    UInt16.le_iff_toNat_le, ← UInt16.toNat_inj] at hs
  simp at hs
  omega

end CodeUnit

namespace Text

/-- The unit of a decimal digit. -/
theorem ofChar_of_isDigit {c : Char} (h : c.isDigit = true) :
    ∃ u : CodeUnit, ofChar c = [u] ∧ u.isDigit = true ∧ u.toNat = c.toNat := by
  have hrange : 0x30 ≤ c.toNat ∧ c.toNat ≤ 0x39 := by
    simp only [Char.isDigit, Bool.and_eq_true, decide_eq_true_eq] at h
    exact h
  have htoNat : c.toNat.toUInt16.toNat = c.toNat := by
    rw [Nat.toUInt16, UInt16.toNat_ofNat']
    omega
  refine ⟨c.toNat.toUInt16, if_pos (by omega), ?_, htoNat⟩
  rw [CodeUnit.isDigit_iff, htoNat]
  exact hrange

theorem isDigit_of_mem_ofNat {n : Nat} : ∀ u ∈ ofNat n, CodeUnit.isDigit u = true := by
  intro u hu
  obtain ⟨c, hc, hmem⟩ := List.mem_flatMap.mp hu
  obtain ⟨v, heq, hv, -⟩ := ofChar_of_isDigit (Nat.isDigit_of_mem_toDigits (by decide) (by decide) hc)
  rw [heq] at hmem
  exact List.mem_singleton.mp hmem ▸ hv

theorem ofNat_ne_nil (n : Nat) : ofNat n ≠ [] := by
  obtain ⟨c, cs, heq⟩ := List.exists_cons_of_ne_nil (Nat.toDigits_ne_nil (n := n) (b := 10))
  have hc : c ∈ Nat.toDigits 10 n := heq ▸ List.mem_cons_self
  obtain ⟨u, hu, -⟩ := ofChar_of_isDigit (Nat.isDigit_of_mem_toDigits (by decide) (by decide) hc)
  rw [ofNat, heq, List.flatMap_cons, hu]
  simp

end Text

namespace Number

/-- The digits of a text have the value that they have as characters. -/
theorem foldl_digitValue {cs : List Char} (h : ∀ c ∈ cs, c.isDigit = true) (start : Nat) :
    (cs.flatMap Text.ofChar).foldl (fun n u => n * 10 + u.digitValue) start
      = Nat.ofDigitChars 10 cs start := by
  induction cs generalizing start with
  | nil => rfl
  | cons c cs ih =>
    obtain ⟨u, hu, hdigit, htoNat⟩ := Text.ofChar_of_isDigit (h c List.mem_cons_self)
    have hvalue : u.digitValue = c.toNat - '0'.toNat := by
      rw [CodeUnit.digitValue, if_pos hdigit, htoNat]
      rfl
    rw [List.flatMap_cons, hu, List.singleton_append, List.foldl_cons, Nat.ofDigitChars_cons, hvalue,
      Nat.mul_comm start 10]
    exact ih (fun d hd => h d (List.mem_cons_of_mem _ hd)) _

theorem ofDigits_ofNat (n : Nat) : ofDigits 10 (Text.ofNat n) = n := by
  have hdigits : ∀ c ∈ Nat.toDigits 10 n, c.isDigit = true := fun c =>
    Nat.isDigit_of_mem_toDigits (by decide) (by decide)
  rw [ofDigits, Text.ofNat, foldl_digitValue hdigits,
    Nat.ofDigitChars_toDigits (by decide) (by decide)]

/-- A number spelled in digits is read as itself. -/
theorem leadingInt?_ofNat (n : Nat) : leadingInt? (Text.ofNat n) = some (n : Int) := by
  have hdigits := Text.isDigit_of_mem_ofNat (n := n)
  have hne := Text.ofNat_ne_nil n
  have htake : (Text.ofNat n).takeWhile CodeUnit.isDigit = Text.ofNat n :=
    List.takeWhile_eq_self_iff.mpr hdigits
  -- The first digit is neither space nor a sign.
  have htrim : (Text.ofNat n).trimStart = Text.ofNat n := by
    obtain ⟨u, rest, heq⟩ := List.exists_cons_of_ne_nil hne
    rw [heq] at hdigits ⊢
    rw [Text.trimStart, List.dropWhile_cons,
      CodeUnit.isUnicodeSpace_of_isDigit (hdigits u List.mem_cons_self)]
    rfl
  have hsign : readSign (Text.ofNat n) = (false, Text.ofNat n) := by
    unfold readSign
    split
    · next heq => exact absurd (hdigits 0x2B (heq ▸ List.mem_cons_self)) (by decide)
    · next heq => exact absurd (hdigits 0x2D (heq ▸ List.mem_cons_self)) (by decide)
    · rfl
  simp only [leadingInt?, htrim, hsign, htake, hne, ofDigits_ofNat]
  rfl

/-! ## Exact numbers -/

theorem roundDiv_one (n : Nat) : roundDiv n 1 = n := by
  simp [roundDiv, Nat.mod_one]

theorem floorLog_one {n : Nat} (h : n ≠ 0) : floorLog n 1 = Nat.log2 n := by
  have hle := Nat.log2_self_le h
  have hone : Nat.log2 1 = 0 := by decide
  simp only [floorLog, scaled, hone, Int.natCast_zero, Int.sub_zero, Int.natCast_nonneg, if_true,
    Int.toNat_natCast, Nat.one_mul, Nat.mul_one, Nat.pow_eq]
  rw [if_pos hle]

/-- A number of at most 53 bits is its own, with its bits moved to the top of the mantissa. -/
theorem ofInt_eq {n : Nat} (hne : n ≠ 0) (hlt : n < 2 ^ 53) :
    ofInt n = .finite (n * 2 ^ (52 - Nat.log2 n) : Nat) (Nat.log2 n - 52 : Int) := by
  have hlog : Nat.log2 n < 53 := (Nat.log2_lt hne).mpr hlt
  have hexponent : max (floorLog n 1 - ((precision : Int) - 1)) minExponent
      = (Nat.log2 n : Int) - 52 := by
    rw [floorLog_one hne]
    simp only [precision, minExponent]
    omega
  have hnegated : -((Nat.log2 n : Int) - 52) = ((52 - Nat.log2 n : Nat) : Int) := by omega
  have hscaled : scaled n 2 (-((Nat.log2 n : Int) - 52)) = (n * 2 ^ (52 - Nat.log2 n), 1) := by
    rw [hnegated, scaled, if_pos (Int.natCast_nonneg _), Int.toNat_natCast, Nat.pow_eq]
  -- The mantissa has 53 bits, so nothing is carried.
  have hmantissa : n * 2 ^ (52 - Nat.log2 n) < 2 ^ 53 := by
    have hself := Nat.lt_log2_self (n := n)
    have hbits : 2 ^ (Nat.log2 n + 1) * 2 ^ (52 - Nat.log2 n) = 2 ^ 53 := by
      rw [← Nat.pow_add]
      congr 1
      omega
    rw [← hbits]
    exact Nat.mul_lt_mul_of_pos_right hself (Nat.two_pow_pos _)
  have hcarry : n * 2 ^ (52 - Nat.log2 n) ≠ Nat.pow 2 precision := Nat.ne_of_lt hmantissa
  have hrange : ¬ maxExponent < (Nat.log2 n : Int) - 52 := by
    simp only [maxExponent]
    omega
  have hpositive : decide ((n : Int) < 0) = false := by
    rw [decide_eq_false_iff_not]
    omega
  rw [ofInt, ofRatio, Int.natAbs_natCast, if_neg hne, hpositive]
  simp only [hexponent, hscaled, Nat.mul_one, roundDiv_one]
  rw [if_neg hcarry, if_neg hrange]
  rfl

/-- A number of at most 53 bits is rounded to itself. -/
theorem toInt?_ofInt {n : Nat} (hne : n ≠ 0) (hlt : n < 2 ^ 53) :
    (ofInt n).toInt? = some (n : Int) := by
  have hlog : Nat.log2 n < 53 := (Nat.log2_lt hne).mpr hlt
  rw [ofInt_eq hne hlt, toInt?]
  by_cases hzero : Nat.log2 n = 52
  · -- The number has all its 53 bits, so it is the mantissa.
    rw [hzero]
    simp
  · have hnegative : ¬ (0 : Int) ≤ (Nat.log2 n : Int) - 52 := by omega
    have hexponent : (-((Nat.log2 n : Int) - 52)).toNat = 52 - Nat.log2 n := by omega
    have hpos : ((2 ^ (52 - Nat.log2 n) : Nat) : Int) ≠ 0 := by
      exact_mod_cast Nat.ne_of_gt (Nat.two_pow_pos (52 - Nat.log2 n))
    rw [if_neg hnegative, hexponent, Nat.pow_eq, Int.natCast_mul]
    simp only [Int.mul_emod_left, if_true]
    rw [Int.mul_ediv_cancel _ hpos]

/-! ## Whole numbers -/

theorem zero_le_finite_iff {m e : Int} : (0 : Number) ≤ .finite m e ↔ 0 ≤ m := by
  have hle : (0 : Number) ≤ .finite m e ↔
      inUnits 0 minExponent (min minExponent e) ≤ inUnits m e (min minExponent e) :=
    decide_eq_true_iff
  have hpos : (0 : Int) < (2 ^ (e - min minExponent e).toNat : Nat) := by
    exact_mod_cast Nat.two_pow_pos _
  rw [hle, inUnits, inUnits, Int.zero_mul, Nat.pow_eq]
  exact Int.mul_nonneg_iff_of_pos_right hpos

variable {n : Number} {i : Int}

/-- A whole number is the least integer that it is at most. -/
theorem ceil?_of_toInt? (h : n.toInt? = some i) : n.ceil? = some i := by
  cases n with
  | nan | infinite _ => cases h
  | finite m e =>
    simp only [toInt?] at h
    simp only [ceil?, Number.neg, floor?, Option.map_some]
    split at h
    · next he =>
      cases h
      rw [if_pos he, Int.neg_mul, Int.neg_neg]
    · next he =>
      rw [if_neg he]
      split at h
      · next hdvd =>
        cases h
        rw [Int.neg_ediv_of_dvd (Int.dvd_of_emod_eq_zero hdvd), Int.neg_neg]
      · cases h

theorem zero_le_of_toInt? (h : n.toInt? = some i) (hi : 0 ≤ i) : 0 ≤ n := by
  cases n with
  | nan | infinite _ => cases h
  | finite m e =>
    rw [zero_le_finite_iff]
    simp only [toInt?] at h
    split at h
    · cases h
      have hpos : (0 : Int) < (Nat.pow 2 e.toNat : Nat) := by
        exact_mod_cast Nat.two_pow_pos _
      exact (Int.mul_nonneg_iff_of_pos_right hpos).mp hi
    · split at h
      · cases h
        have hpos : (0 : Int) < (Nat.pow 2 (-e).toNat : Nat) := by
          exact_mod_cast Nat.two_pow_pos _
        exact (Int.ediv_nonneg_iff_of_pos hpos).mp hi
      · cases h

end Number

end LatexMarkdown
