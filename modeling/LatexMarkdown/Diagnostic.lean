import LatexMarkdown.Number.Shortest
import LatexMarkdown.Position
/-!
  What can be said about a source.

  A `Diagnostic` reports something that was read in a lesser way than it was written; reading goes
  on.  A `StructuralError` ends it: the markers of the source do not fit together.  Both keep the
  cause; code and wording are functions of it.
-/
namespace LatexMarkdown

/-! ## Diagnostics -/

/-- Why something was read in a lesser way. -/
inductive Degradation
  /-- An escape that names nothing is kept as text. -/
  | malformedEscape (spelling : Text)
  | unknownCommand (name : Text)
  | unknownEnvironment (name : Text)
  /-- A table row has fewer cells than the widest one. -/
  | raggedTableRow (cells columns : Nat) (environment : Text)
  /-- A heading level was moved into range. -/
  | headingLevelClamped (requested : Int) (level : Nat) (command : Text)
  /-- Content before the first item of a list. -/
  | implicitListItem (environment : Text)
  deriving DecidableEq, Repr

namespace Degradation

/-- The kind of trouble. -/
def category : Degradation → String
  | malformedEscape _ => "syntax"
  | unknownCommand _ | unknownEnvironment _ => "unsupported"
  | raggedTableRow _ _ _ | headingLevelClamped _ _ _ | implicitListItem _ => "structure"

/-- The code for machines. -/
def code : Degradation → String
  | malformedEscape _ => "malformed-escape"
  | unknownCommand _ => "unknown-command"
  | unknownEnvironment _ => "unknown-environment"
  | raggedTableRow _ _ _ => "ragged-table-row"
  | headingLevelClamped _ _ _ => "heading-level-clamped"
  | implicitListItem _ => "implicit-list-item"

/-- What the diagnostic is about. -/
def subject : Degradation → Text
  | malformedEscape spelling => spelling
  | unknownCommand name => name
  | unknownEnvironment name => name
  | raggedTableRow _ _ environment => environment
  | headingLevelClamped _ _ command => command
  | implicitListItem environment => environment

/-- The wording for people. -/
def message : Degradation → Text
  | malformedEscape spelling => "Escape '" ++ spelling ++ "' names nothing; kept as text"
  | unknownCommand name => "Unknown command \\" ++ name ++ " kept as text"
  | unknownEnvironment name => "Unknown environment '" ++ name ++ "' treated as plain content"
  | raggedTableRow cells columns _ =>
    "Table row has " ++ Text.ofNat cells ++ " of " ++ Text.ofNat columns ++ " cells"
  | headingLevelClamped requested level _ =>
    "Heading level " ++ (Number.ofInt requested).text ++ " clamped to " ++ Text.ofNat level
  | implicitListItem environment => "Content before the first \\item in '" ++ environment ++ "'"

end Degradation

/-- A report on the source from `start` up to `stop`.  Every one of them is a warning. -/
structure Diagnostic where
  cause : Degradation
  start : Nat
  stop : Nat
  deriving DecidableEq, Repr

/-- How grave a diagnostic is. -/
def Diagnostic.severity (_ : Diagnostic) : String := "warning"

/-! ## Structural errors -/

/-- How the markers of a source fail to fit together. -/
inductive Flaw
  | unclosedEnvironment (name : Text)
  | mismatchedEnvironment (found opened : Text)
  | unexpectedEnvironmentEnd (name : Text)
  | unclosedGroup (opener : Text)
  | unexpectedGroupClose
  | missingArgument (command : Text)
  | missingEnvironmentArgument (environment : Text)
  | malformedLink (command : Text)
  | unclosedMath (opener : Text)
  /-- An environment begins where only inline content may stand. -/
  | nestedEnvironment (name : Text)
  /-- A heading stands where only inline content may stand. -/
  | nestedHeading (command : Text)
  | nestingTooDeep (limit : Nat)
  deriving DecidableEq, Repr

namespace Flaw

/-- The code for machines. -/
def code : Flaw → String
  | unclosedEnvironment _ => "unclosed-environment"
  | mismatchedEnvironment _ _ => "mismatched-environment"
  | unexpectedEnvironmentEnd _ => "unexpected-environment-end"
  | unclosedGroup _ => "unclosed-group"
  | unexpectedGroupClose => "unexpected-group-close"
  | missingArgument _ | missingEnvironmentArgument _ => "missing-argument"
  | malformedLink _ => "malformed-link"
  | unclosedMath _ => "unclosed-math"
  | nestedEnvironment _ | nestedHeading _ => "invalid-nesting"
  | nestingTooDeep _ => "nesting-too-deep"

/-- What the error is about, when it has a name. -/
def subject : Flaw → Option Text
  | unclosedEnvironment name => some name
  | mismatchedEnvironment found _ => some found
  | unexpectedEnvironmentEnd name => some name
  | unclosedGroup _ => none
  | unexpectedGroupClose => none
  | missingArgument command => some command
  | missingEnvironmentArgument environment => some environment
  | malformedLink command => some command
  | unclosedMath opener => some opener
  | nestedEnvironment name => some name
  | nestedHeading command => some command
  | nestingTooDeep _ => none

/-- The wording for people, without the place. -/
def message : Flaw → Text
  | unclosedEnvironment name => "Environment '" ++ name ++ "' is never closed"
  | mismatchedEnvironment found opened =>
    "\\end\x7b" ++ found ++ "\x7d does not match \\begin\x7b" ++ opened ++ "\x7d"
  | unexpectedEnvironmentEnd name => "\\end\x7b" ++ name ++ "\x7d has no matching \\begin"
  | unclosedGroup opener => "'" ++ opener ++ "' is never closed"
  | unexpectedGroupClose => "Unexpected '\x7d' without a matching '\x7b'"
  | missingArgument command => "\\" ++ command ++ " requires an argument"
  | missingEnvironmentArgument environment =>
    "Environment '" ++ environment ++ "' requires an argument"
  | malformedLink command => "\\" ++ command ++ " requires a URL and a link text"
  | unclosedMath opener => "Math opened with '" ++ opener ++ "' is never closed"
  | nestedEnvironment name =>
    "Environment '" ++ name ++ "' cannot begin inside an inline argument"
  | nestedHeading command => "\\" ++ command ++ " cannot appear inside an inline argument"
  | nestingTooDeep limit => "Nesting deeper than " ++ Text.ofNat limit ++ " levels"

end Flaw

/-- A flaw with its place: the offset and index of the token that it is about. -/
structure StructuralError where
  flaw : Flaw
  offset : Nat
  tokenIndex : Nat
  position : Position
  deriving DecidableEq, Repr

/-- The wording for people. -/
def StructuralError.message (e : StructuralError) : Text :=
  e.flaw.message ++ " (line " ++ Text.ofNat e.position.line ++ ", column "
    ++ Text.ofNat e.position.column ++ ")"

end LatexMarkdown
