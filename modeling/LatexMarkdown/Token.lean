import LatexMarkdown.Number.Arithmetic
import LatexMarkdown.Number.Shortest
import LatexMarkdown.Text.Blank
/-!
  Tokens of the source language.

  Every construct that document structure depends on has a kind of its own, so nothing after the
  scanner reads the source again.  A token carries its span, the marks of the line it stands on
  and a payload: a command's or environment's name, a text's characters, a delimiter's spelling.
  The scanner makes natural offsets; a token may have offsets of any type.
-/
namespace LatexMarkdown

/-- What a token is. -/
inductive TokenKind
  | unknown
  | endOfFile
  | text
  | newLine
  | rawText
  | command
  | envBegin
  | envEnd
  | mathInline
  | mathDisplay
  | groupOpen
  | groupClose
  | bracketOpen
  | bracketClose
  | alignmentTab
  | lineBreak
  | comment
  deriving DecidableEq, Repr

namespace TokenKind

/-- The kinds in the order of their numbers. -/
def all : List TokenKind :=
  [unknown, endOfFile, text, newLine, rawText, command, envBegin, envEnd, mathInline, mathDisplay,
   groupOpen, groupClose, bracketOpen, bracketClose, alignmentTab, lineBreak, comment]

/-- The name a kind is shown by. -/
def name : TokenKind → String
  | unknown => "Unknown"
  | endOfFile => "EndOfFileToken"
  | text => "Text"
  | newLine => "NewLine"
  | rawText => "RawText"
  | command => "Command"
  | envBegin => "EnvBegin"
  | envEnd => "EnvEnd"
  | mathInline => "MathInlineDelimiter"
  | mathDisplay => "MathDisplayDelimiter"
  | groupOpen => "GroupOpen"
  | groupClose => "GroupClose"
  | bracketOpen => "BracketOpen"
  | bracketClose => "BracketClose"
  | alignmentTab => "AlignmentTab"
  | lineBreak => "LineBreak"
  | comment => "Comment"

/-- The kind shown by a name. -/
def ofName? (s : String) : Option TokenKind := all.find? (·.name == s)

/-- The kind with a number, the first being 0. -/
def ofNumber? (n : Int) : Option TokenKind := if 0 ≤ n then all[n.toNat]? else none

/-- The name of the kind with a number, or the number itself where no kind has it. -/
def describe (n : Number) : Text :=
  match n.toInt?.bind ofNumber? with
  | some k => k.name
  | none => "SyntaxKind:" ++ n.text

theorem mem_all (k : TokenKind) : k ∈ all := by cases k <;> decide

end TokenKind

/-- The marks of a token: where it stands on its line, and how its text came about. -/
structure TokenFlags where
  /-- A line break comes right before. -/
  afterBreak : Bool := false
  /-- Nothing but space stands before it on its line. -/
  atLineStart : Bool := false
  /-- A line break that ends a line without content. -/
  blankLine : Bool := false
  /-- Text that an escape stands for. -/
  escaped : Bool := false
  /-- Text kept from an escape that names nothing. -/
  malformed : Bool := false
  /-- Raw text whose closing delimiter is missing. -/
  unterminated : Bool := false
  /-- The number that a caller gave the marks as. -/
  given : Option Number := none
  deriving DecidableEq, Repr

namespace TokenFlags

/-- The marks as a number, one bit each. -/
def toNat (f : TokenFlags) : Nat :=
  f.afterBreak.toNat + 2 * f.atLineStart.toNat + 4 * f.blankLine.toNat + 8 * f.escaped.toNat
    + 16 * f.malformed.toNat + 32 * f.unterminated.toNat

/-- The number that the marks are shown as: the one that they were given as, or their own. -/
def toNumber (f : TokenFlags) : Number := f.given.getD (.ofNat f.toNat)

/-- The marks of a number; its other bits mean nothing and are kept. -/
def ofNumber (n : Number) : TokenFlags :=
  ⟨n.testBit 0, n.testBit 1, n.testBit 2, n.testBit 3, n.testBit 4, n.testBit 5, some n⟩

theorem toNumber_ofNumber (n : Number) : (ofNumber n).toNumber = n := rfl

end TokenFlags

/-- A piece of the source from `start` up to `stop`. -/
structure Token (P : Type := Nat) where
  kind : TokenKind
  flags : TokenFlags := {}
  start : P
  stop : P
  text : Text
  deriving DecidableEq, Repr

namespace Token

variable {P Q : Type}

/-- The token with its offsets mapped. -/
def mapOffsets (f : P → Q) (t : Token P) : Token Q :=
  { kind := t.kind, flags := t.flags, start := f t.start, stop := f t.stop, text := t.text }

/-- The token answered where there is none. -/
def endOfInput [OfNat P 0] : Token P := ⟨.endOfFile, {}, 0, 0, []⟩

/-- A line break that ends a line without content. -/
def isBlankLine (t : Token P) : Bool := t.kind == .newLine && t.flags.blankLine

/-- A text of space only. -/
def isBlankText (t : Token P) : Bool := t.kind == .text && t.text.isBlank

/-- The command of a given name. -/
def isCommand (name : Text) (t : Token P) : Bool := t.kind == .command && t.text == name

/-- Blank text and line breaks, blank lines included. -/
def isSpacing (t : Token P) : Bool := t.isBlankText || t.kind == .newLine

/-- What may stand between a command and its argument: blank text and line breaks, but no blank
line. -/
def isArgumentSpacing (t : Token P) : Bool :=
  t.isBlankText || (t.kind == .newLine && !t.isBlankLine)

theorem isSpacing_of_isArgumentSpacing {t : Token P} (h : t.isArgumentSpacing = true) :
    t.isSpacing = true := by
  simp only [isArgumentSpacing, isSpacing, Bool.or_eq_true, Bool.and_eq_true] at *
  exact h.imp id And.left

theorem kind_ne_endOfFile_of_isSpacing {t : Token P} (h : t.isSpacing = true) :
    t.kind ≠ .endOfFile := by
  intro hk
  simp [isSpacing, isBlankText, hk] at h

end Token

end LatexMarkdown
