import LatexMarkdown.Text
/-!
  Text in double quotes.

  Quotes, backslashes, the control characters and halves of surrogate pairs that stand alone are
  escaped, so that the quoted form holds only printable characters.
-/
namespace LatexMarkdown

namespace Text

/-- A hexadecimal digit, in lower case. -/
def hexDigit (n : Nat) : CodeUnit := if n < 10 then (0x30 + n).toUInt16 else (0x57 + n).toUInt16

/-- A unit as a backslash, `u` and four hexadecimal digits. -/
def unicodeEscape (u : CodeUnit) : Text :=
  [0x5C, 0x75, hexDigit (u.toNat / 4096), hexDigit (u.toNat / 256 % 16),
    hexDigit (u.toNat / 16 % 16), hexDigit (u.toNat % 16)]

/-- A unit that belongs to no pair, as it stands between quotes. -/
def escapeUnit (u : CodeUnit) : Text :=
  if u = 0x22 then [0x5C, 0x22]
  else if u = 0x5C then [0x5C, 0x5C]
  else if u = 0x08 then [0x5C, 0x62]
  else if u = 0x0C then [0x5C, 0x66]
  else if u = 0x0A then [0x5C, 0x6E]
  else if u = 0x0D then [0x5C, 0x72]
  else if u = 0x09 then [0x5C, 0x74]
  else if u < 0x20 ∨ u.isHighHalf ∨ u.isLowHalf then unicodeEscape u
  else [u]

/-- Units as they stand between quotes; a surrogate pair stands for itself. -/
def escapeUnits : Text → Text
  | [] => []
  | [u] => escapeUnit u
  | u :: v :: rest =>
    if u.isHighHalf && v.isLowHalf then u :: v :: escapeUnits rest
    else escapeUnit u ++ escapeUnits (v :: rest)

/-- A text in double quotes. -/
def quoted (t : Text) : Text := 0x22 :: escapeUnits t ++ [0x22]

end Text

end LatexMarkdown
