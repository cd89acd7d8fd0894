import LatexMarkdown.Text
import LatexMarkdown.Text.CaseTable
/-!
  Lower case, independent of any locale.

  Three rules: a capital I with a dot becomes an i and a combining dot, a capital sigma at the end
  of a word becomes a final sigma, and every other character goes by the table.
-/
namespace LatexMarkdown

namespace CaseTable

/-- Does one of the ranges hold the code point? -/
def inRanges (ranges : List (Nat × Nat)) (c : Nat) : Bool :=
  ranges.any fun (first, last) => first ≤ c && c ≤ last

/-- A cased character that is not case-ignorable. -/
def isCased (c : Nat) : Bool := inRanges casedRanges c

/-- A case-ignorable character. -/
def isIgnorable (c : Nat) : Bool := inRanges ignorableRanges c

/-- The lower-case form by the table. -/
def lower (c : Nat) : Nat :=
  match lowerRuns.find? fun r => r.first ≤ c && c ≤ r.last && (c - r.first) % r.step == 0 with
  | some r => ((c : Int) + r.delta).toNat
  | none => c

end CaseTable

/-- The code point of a character, or the value of a lone half. -/
def Scalar.point : Scalar → Nat
  | .char c => c.toNat
  | .half u => u.toNat

namespace Text

/-- The code points of a text, lone halves with their own values. -/
def points (t : Text) : List Nat := t.scalars.map Scalar.point

/-- The units of a code point. -/
def ofPoint (n : Nat) : Text :=
  if n < 0x10000 then [n.toUInt16]
  else [(0xD800 + (n - 0x10000) / 0x400).toUInt16, (0xDC00 + (n - 0x10000) % 0x400).toUInt16]

/-- Is the first of these code points that is not case-ignorable cased? -/
def meetsCased (points : List Nat) : Bool :=
  ((points.dropWhile CaseTable.isIgnorable).head?).any CaseTable.isCased

/-- The lower-case form of a code point between those before it, nearest first, and those after. -/
def lowerPoint (before : List Nat) (c : Nat) (after : List Nat) : List Nat :=
  -- The capital I with a dot is the one character with a lower-case form of two.
  if c = 0x130 then [0x69, 0x307]
  -- A sigma is final after a cased character and before none, ignorable ones left out.
  else if c = 0x3A3 then
    [if meetsCased before && !meetsCased after then 0x3C2 else 0x3C3]
  else [CaseTable.lower c]

/-- The lower-case forms of code points that follow those in `before`, nearest first. -/
def lowerPoints (before : List Nat) : List Nat → List Nat
  | [] => []
  | c :: rest => lowerPoint before c rest ++ lowerPoints (c :: before) rest

/-- A text in lower case. -/
def toLower (t : Text) : Text := (lowerPoints [] t.points).flatMap ofPoint

end Text

end LatexMarkdown
