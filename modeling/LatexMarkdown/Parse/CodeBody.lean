import LatexMarkdown.Text.Blank
import LatexMarkdown.Text.LowerCase
/-!
  The body of a code environment.

  A listing may begin with options in brackets, one of which names the language; the other
  highlighting environment has an optional argument and then the language in braces.  What is left
  loses one line break at either end, with the spaces and tabs between it and the edge.
-/
namespace LatexMarkdown.Parse

/-- The code of a body and the language it names. -/
structure CodeBody where
  text : Text
  language : Option Text := none
  deriving DecidableEq, Repr

namespace CodeBody

/-- What stands between `opening` at the front of a text and the next `closing` on the same line,
and what follows. -/
def header? (opening closing : CodeUnit) (t : Text) : Option (Text × Text) :=
  if t.head? = some opening then
    let inner := t.tail.takeWhile fun u => u != closing && u != 0x0A
    let after := t.tail.drop inner.length
    if after.head? = some closing then some (inner, after.tail) else none
  else none

/-- ASCII letters in lower case. -/
def asciiLower (t : Text) : Text := t.map fun u => if 0x41 ≤ u && u ≤ 0x5A then u + 0x20 else u

/-- The value of a `language = value` setting; space around its parts is ignored. -/
def languageSetting? (t : Text) : Option Text :=
  let name := t.trimStart
  let rest := Text.trimStart (name.drop 8)
  if asciiLower (name.take 8) = "language" ∧ rest.head? = some 0x3D then
    let value := (Text.trimStart rest.tail).takeWhile (!·.isUnicodeSpace)
    if value = [] then none else some value
  else none

/-- The language among options separated by commas; the first one that has a value counts. -/
def language? (options : Text) : Option Text := (options.splitOn 0x2C).findSome? languageSetting?

/-- Without a first line of spaces and tabs. -/
def dropFirstBreak (t : Text) : Text :=
  match t.dropWhile CodeUnit.isTabSpace with
  | 0x0D :: 0x0A :: rest => rest
  | 0x0A :: rest => rest
  | _ => t

/-- Without a last line of spaces and tabs and the break before it. -/
def dropLastBreak (t : Text) : Text :=
  match t.reverse.dropWhile CodeUnit.isTabSpace with
  | 0x0A :: 0x0D :: rest => rest.reverse
  | 0x0A :: rest => rest.reverse
  | _ => t

/-- The options and the rest of a listing. -/
def ofListing (body : Text) : CodeBody :=
  match header? 0x5B 0x5D (body.dropWhile CodeUnit.isTabSpace) with
  | some (options, rest) => ⟨rest, language? options⟩
  | none => ⟨body, none⟩

/-- The language and the rest of a highlighted body. -/
def ofHighlighted (body : Text) : CodeBody :=
  let start := body.dropWhile CodeUnit.isTabSpace
  let afterOptions :=
    match header? 0x5B 0x5D start with
    | some (_, rest) => rest
    | none => start
  match header? 0x7B 0x7D (afterOptions.dropWhile CodeUnit.isTabSpace) with
  | some (language, rest) => ⟨rest, some language.trim⟩
  | none => ⟨body, none⟩

/-- The code of an environment's body. -/
def ofBody (environment body : Text) : CodeBody :=
  let code :=
    if environment = "lstlisting" then ofListing body
    else if environment = "minted" then ofHighlighted body
    else ⟨body, none⟩
  { text := dropLastBreak (dropFirstBreak code.text)
    language := (code.language.map Text.toLower).filter (· ≠ []) }

end CodeBody

end LatexMarkdown.Parse
