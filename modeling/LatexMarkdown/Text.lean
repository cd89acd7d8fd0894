/-!
  Text as a sequence of UTF-16 code units.

  Offsets, columns and lengths all count code units, and a surrogate pair may be cut in two, so
  text is a plain list of units.  `Text.scalars` is the view in characters: `Text.ofString` and
  `Text.spelled` convert at the edge of the library, where a unit that is half of no pair still
  has to be written somehow.
-/
namespace LatexMarkdown

/-- One UTF-16 code unit. -/
abbrev CodeUnit := UInt16

/-- A sequence of UTF-16 code units. -/
abbrev Text := List CodeUnit

namespace CodeUnit

/-- First half of a surrogate pair. -/
def isHighHalf (u : CodeUnit) : Bool := 0xD800 ≤ u && u < 0xDC00

/-- Second half of a surrogate pair. -/
def isLowHalf (u : CodeUnit) : Bool := 0xDC00 ≤ u && u < 0xE000

/-- ASCII letters.  Command names are runs of these. -/
def isLetter (u : CodeUnit) : Bool := (0x41 ≤ u && u ≤ 0x5A) || (0x61 ≤ u && u ≤ 0x7A)

/-- ASCII decimal digits. -/
def isDigit (u : CodeUnit) : Bool := 0x30 ≤ u && u ≤ 0x39

end CodeUnit

/-- What a maximal step through a text reads: a character, or half of a pair standing alone. -/
inductive Scalar
  | char (c : Char)
  | half (u : CodeUnit)
  deriving DecidableEq, Repr

namespace Text

/-! ## Characters to units -/

/-- The one or two units of a character. -/
def ofChar (c : Char) : Text :=
  if c.toNat < 0x10000 then [c.toNat.toUInt16]
  else
    let v := c.toNat - 0x10000
    [(0xD800 + v / 0x400).toUInt16, (0xDC00 + v % 0x400).toUInt16]

/-- The units of a string. -/
def ofString (s : String) : Text := s.toList.flatMap ofChar

instance : Coe String Text := ⟨ofString⟩

/-- Decimal digits of a natural number. -/
def ofNat (n : Nat) : Text := (Nat.toDigits 10 n).flatMap ofChar

/-! ## Units to characters -/

/-- The character of a surrogate pair. -/
def pairChar (high low : CodeUnit) : Char :=
  Char.ofNat (0x10000 + (high.toNat - 0xD800) * 0x400 + (low.toNat - 0xDC00))

/-- A unit that is not the first half of a pair. -/
def single (u : CodeUnit) : Scalar :=
  if u.isHighHalf || u.isLowHalf then .half u else .char (Char.ofNat u.toNat)

/-- The characters of a text, pairs joined and every other half left alone. -/
def scalars : Text → List Scalar
  | [] => []
  | [u] => [single u]
  | u :: v :: rest =>
    if u.isHighHalf && v.isLowHalf then .char (pairChar u v) :: scalars rest
    else single u :: scalars (v :: rest)

/-- A text as a string, with `lone` spelling every unit that is half of no pair. -/
def spelled (lone : CodeUnit → String) (t : Text) : String :=
  t.scalars.foldl (fun s x => match x with | .char c => s.push c | .half u => s ++ lone u) ""

/-- A text as a string; a lone half becomes the replacement character. -/
def toString (t : Text) : String := t.spelled fun _ => "\uFFFD"

/-! ## Parts of a text -/

/-- The units from offset `start` up to offset `stop`. -/
def slice (t : Text) (start stop : Nat) : Text := (t.drop start).take (stop - start)

/-- The pieces between the occurrences of `u`; a text without it is one piece. -/
def splitOn (u : CodeUnit) : Text → List Text
  | [] => [[]]
  | c :: rest =>
    if c = u then [] :: splitOn u rest
    else match splitOn u rest with
      | [] => [[c]]
      | piece :: pieces => (c :: piece) :: pieces

theorem splitOn_ne_nil (u : CodeUnit) (t : Text) : splitOn u t ≠ [] := by
  cases t with
  | nil => simp [splitOn]
  | cons c rest =>
    simp only [splitOn]
    split
    · simp
    · split <;> simp

/-- Pieces joined with `separator` between them. -/
def join (separator : Text) (pieces : List Text) : Text := separator.intercalate pieces

/-- Splitting and joining at the same unit gives the text back. -/
theorem join_splitOn (u : CodeUnit) (t : Text) : join [u] (splitOn u t) = t := by
  induction t with
  | nil => simp [splitOn, join, List.intercalate]
  | cons c rest ih =>
    simp only [splitOn]
    have hne := splitOn_ne_nil u rest
    cases hs : splitOn u rest with
    | nil => exact absurd hs hne
    | cons piece pieces =>
      rw [hs] at ih
      split
      · next h =>
        subst h
        simp_all [join, List.intercalate]
      · cases pieces <;> simp_all [join, List.intercalate]

/-- A text in which every unit satisfying `p` is replaced by `f` of it. -/
def replaceEach (p : CodeUnit → Bool) (f : CodeUnit → Text) (t : Text) : Text :=
  t.flatMap fun u => if p u then f u else [u]

end Text

end LatexMarkdown
