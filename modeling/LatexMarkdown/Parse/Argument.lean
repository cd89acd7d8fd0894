import LatexMarkdown.Diagnostic
import LatexMarkdown.Document
import LatexMarkdown.Text.Blank
import LatexMarkdown.Token.Cursor
/-!
  Arguments and mathematics, read whole.

  These readers take a cursor and answer with what they read and the cursor behind it.  An optional
  argument in brackets is skipped or left alone; an argument in braces is taken as it is spelled;
  mathematics runs to its closing delimiter.
-/
namespace LatexMarkdown

/-- A token that opened something, with its place in the token list. -/
structure Marker where
  token : Token
  index : Nat
  deriving DecidableEq, Repr

/-- The name or spelling of the token. -/
def Marker.text (m : Marker) : Text := m.token.text

/-- The current token as a marker. -/
def Cursor.marker (c : Cursor) : Marker := ⟨c.current, c.index⟩

namespace Parse

/-- A flaw and the marker it is about. -/
structure Failure where
  flaw : Flaw
  marker : Marker
  deriving DecidableEq, Repr

/-- The source, by offsets. -/
abbrev Source := Array CodeUnit

/-- The spelling of a token. -/
def Source.spelling (source : Source) (t : Token) : Text := (source.extract t.start t.stop).toList

/-- The spelling of a token where source is taken as it stands; a comment has none. -/
def Source.raw (source : Source) (t : Token) : Text :=
  if t.kind = .comment then [] else source.spelling t

/-! ## Arguments -/

/-- The cursor at the next token that is not spacing, when that is of the given kind. -/
def startArgument? (kind : TokenKind) (c : Cursor) : Option Cursor :=
  let n := c.countWhile Token.isArgumentSpacing
  if (c.lookahead n).kind = kind then some (c.advanceBy n) else none

/-- How many tokens an optional argument has after its opening bracket, the closing one included.
The closing bracket is the first at group depth 0 or less; a blank line or the end comes too
early. -/
def optionalArgumentLength? (depth : Int) : List Token → Option Nat
  | [] => none
  | t :: rest =>
    if t.kind = .endOfFile ∨ t.isBlankLine then none
    else
      let depth := match t.kind with
        | .groupOpen => depth + 1
        | .groupClose => depth - 1
        | _ => depth
      if t.kind = .bracketClose ∧ depth ≤ 0 then some 1
      else (optionalArgumentLength? depth rest).map (· + 1)

/-- Past an optional argument, when one follows. -/
def skipOptionalArgument (c : Cursor) : Cursor :=
  match startArgument? .bracketOpen c with
  | some opened =>
    match optionalArgumentLength? 0 opened.ahead.tail with
    | some n => opened.advanceBy (n + 1)
    | none => c
  | none => c

/-- The text of a group after its opening brace, and how many tokens it has, the closing brace
included.  Escaped text stands for its bare character. -/
def groupText? (source : Source) (depth : Nat) : List Token → Option (Text × Nat)
  | [] => none
  | t :: rest =>
    let piece := if t.kind = .text ∧ t.flags.escaped then t.text else source.raw t
    let more (depth : Nat) := (groupText? source depth rest).map fun (text, n) =>
      (piece ++ text, n + 1)
    match t.kind with
    | .endOfFile => none
    | .groupOpen => more (depth + 1)
    | .groupClose =>
      match depth with
      | 0 => some ([], 1)
      | depth + 1 => more depth
    | _ => more depth

/-- The cursor at the brace that opens a required argument.  `flaw` is what it means for `owner` to
have none. -/
def startGroup (owner : Marker) (flaw : Flaw) (c : Cursor) : Except Failure Cursor :=
  match startArgument? .groupOpen c with
  | some opened => .ok opened
  | none => .error ⟨flaw, owner⟩

/-- A required argument taken as it is spelled. -/
def readGroup (source : Source) (owner : Marker) (flaw : Flaw) (c : Cursor) :
    Except Failure (Text × Cursor) := do
  let opened ← startGroup owner flaw c
  match groupText? source 0 opened.ahead.tail with
  | some (text, n) => return (text, opened.advanceBy (n + 1))
  | none => throw ⟨.unclosedGroup opened.marker.text, opened.marker⟩

/-- Past so many required arguments. -/
def skipGroups (source : Source) (owner : Marker) (flaw : Flaw) :
    Nat → Cursor → Except Failure Cursor
  | 0, c => .ok c
  | n + 1, c => do
    let (_, c) ← readGroup source owner flaw c
    skipGroups source owner flaw n c

/-- What it means for a command or environment to lack an argument. -/
def missingArgument (owner : Marker) : Flaw :=
  if owner.token.kind = .envBegin then .missingEnvironmentArgument owner.text
  else .missingArgument owner.text

/-- Past the current command, an optional argument and so many required ones. -/
def skipCommand (source : Source) (count : Nat) (c : Cursor) : Except Failure Cursor :=
  skipGroups source c.marker (missingArgument c.marker) count (skipOptionalArgument c.advance)

/-! ## Mathematics -/

/-- The source up to the first token satisfying `closes`, and how many tokens that is, the closing
one included. -/
def textUpTo? (source : Source) (closes : Token → Bool) : List Token → Option (Text × Nat)
  | [] => none
  | t :: rest =>
    if t.kind = .endOfFile then none
    else if closes t then some ([], 1)
    else (textUpTo? source closes rest).map fun (text, n) => (source.raw t ++ text, n + 1)

/-- The delimiter that closes mathematics opened with the given one. -/
def mathCloser (opener : Text) : Text :=
  if opener = "\\(" then "\\)" else if opener = "\\[" then "\\]" else opener

/-- A delimiter that opens display mathematics. -/
def opensDisplay (t : Token) : Bool :=
  t.kind == .mathDisplay && (t.text == "$$" || t.text == "\\[")

/-- Mathematics from the opening delimiter, which is current, to the closing one: the body, trimmed,
and the cursor behind it. -/
def readMath (source : Source) (c : Cursor) : Except Failure (Text × Cursor) :=
  let opener := c.marker
  let closes (t : Token) : Bool :=
    t.kind == opener.token.kind && t.text == mathCloser opener.text
  match textUpTo? source closes c.ahead.tail with
  | some (text, n) => .ok (text.trim, c.advanceBy (n + 1))
  | none => .error ⟨.unclosedMath opener.text, opener⟩

/-- Inline mathematics with its body on one line; none when the body is empty. -/
def mathSpan (start stop : Nat) (body : Text) : List Inline :=
  let text := body.trim.collapse CodeUnit.isUnicodeSpace
  if text = [] then [] else [.math (.span start stop) text]

/-- Mathematics after a single dollar, and how many tokens it has up to and with the closing dollar.
A double dollar closes it and opens the next with its second half.  `index` counts the tokens of the
list, and `pieces` is the body so far, the last piece first. -/
def readDollars (source : Source) (opener : Marker) (index : Nat) (pieces : List Text) :
    List Token → Except Failure (List Inline × Nat)
  | [] => .error ⟨.unclosedMath opener.text, opener⟩
  | t :: rest =>
    if t.kind = .endOfFile then .error ⟨.unclosedMath opener.text, opener⟩
    else if t.kind = .mathInline ∧ t.text = "$" then
      .ok (mathSpan opener.token.start t.stop pieces.reverse.flatten, 1)
    else if t.kind = .mathDisplay ∧ t.text = "$$" then do
      -- The second half opens the next span, under the index of the whole token.
      let half : Token := { t with kind := .mathInline, start := t.start + 1, text := "$" }
      let (spans, n) ← readDollars source ⟨half, index⟩ (index + 1) [] rest
      return (mathSpan opener.token.start (t.start + 1) pieces.reverse.flatten ++ spans, n + 1)
    else do
      let (spans, n) ← readDollars source opener (index + 1) (source.raw t :: pieces) rest
      return (spans, n + 1)

/-- Inline mathematics from the opening delimiter, which is current. -/
def readInlineMath (source : Source) (c : Cursor) : Except Failure (List Inline × Cursor) := do
  let opener := c.marker
  if opener.text = "$" then
    let (spans, n) ← readDollars source opener (opener.index + 1) [] c.ahead.tail
    return (spans, c.advanceBy (n + 1))
  else
    let (text, after) ← readMath source c
    return (mathSpan opener.token.start after.lastStop text, after)

end Parse

end LatexMarkdown
