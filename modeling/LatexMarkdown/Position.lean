import LatexMarkdown.Text.Blank
/-!
  Lines and columns of a text.

  `lineStarts` lists the offsets at which lines begin; a line ends after a line feed, a carriage
  return and line feed together, or a carriage return alone.  `LineTable.position` finds the line
  of an offset in such a list by bisection.  A text has natural offsets; a table may hold offsets of
  any ordered type.
-/
namespace LatexMarkdown

/-- A place in a text, line and column counted from 1. -/
structure Position (P : Type := Nat) where
  line : Nat
  column : P
  deriving DecidableEq, Repr

namespace Text

/-- Offsets right after the line breaks of a text that begins at offset `start`. -/
def lineStartsFrom (start : Nat) : Text → List Nat
  | [] => []
  | u :: rest =>
    if u = 0x0A || (u = 0x0D && rest.head? ≠ some 0x0A) then
      (start + 1) :: lineStartsFrom (start + 1) rest
    else lineStartsFrom (start + 1) rest

/-- Offsets at which the lines of a text begin. -/
def lineStarts (t : Text) : List Nat := 0 :: lineStartsFrom 0 t

end Text

/-- Offsets at which lines begin, as the index by which offsets are looked up. -/
abbrev LineTable (P : Type := Nat) := Array P

namespace LineTable

/-- The line table of a text. -/
def ofText (t : Text) : LineTable := t.lineStarts.toArray

variable {P : Type} [LE P] [DecidableLE P]

/-- The last index in `low .. high` whose line starts at or before `offset`, found by bisection;
`low` when there is none. -/
def seek (table : LineTable P) (offset : P) (low high : Nat) : Nat :=
  if low < high then
    let middle := (low + high + 1) / 2
    if table[middle]?.any (· ≤ offset) then seek table offset middle high
    else seek table offset low (middle - 1)
  else low
  termination_by high - low

/-- Line and column of an offset.  Without lines there is no column to count from. -/
def position [Inhabited P] [OfNat P 1] [Add P] [Sub P] (table : LineTable P) (offset : P) :
    Position P :=
  let index := seek table offset 0 (table.size - 1)
  ⟨index + 1, offset - table.getD index default + 1⟩

end LineTable

end LatexMarkdown
