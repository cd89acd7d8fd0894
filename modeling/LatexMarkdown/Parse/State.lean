import LatexMarkdown.Document.Fragments
import LatexMarkdown.Parse.Argument
import LatexMarkdown.Settings
import LatexMarkdown.Vocabulary
/-!
  The state of reading a document: the tokens left and everything that is still open.

  Environments whose body is blocks form a stack.  Inside the innermost one there is at most one
  line of inline content: a paragraph, a heading, an item label or a table cell, and on top of it
  the arguments of commands that are themselves inline content.  Each such run of inline content
  has its own braces.  No other construct stays open from one token to the next.
-/
namespace LatexMarkdown.Parse

/-- Most constructs that may be open at a time. -/
def nestingLimit : Nat := 256

/-! ## Environments -/

/-- A list item whose blocks are being read.  An implicit one holds what comes before the first
item marker. -/
structure OpenItem where
  start : Nat
  implicit : Bool
  label : List Inline := []

/-- A list being read; finished items, the last one first. -/
structure OpenList where
  ordered : Bool
  items : List ListItem := []
  item : OpenItem

/-- What the blocks of an open environment are for. -/
inductive Role
  /-- They stand in place. -/
  | inPlace
  /-- They stand in place, in a float around a table. -/
  | float
  | quote
  /-- They belong to the open item of a list. -/
  | list (l : OpenList)

/-- Is it a list? -/
def Role.isList : Role → Bool
  | list _ => true
  | _ => false

/-- Is it a float? -/
def Role.isFloat : Role → Bool
  | float => true
  | _ => false

/-- The same with a label for the open item. -/
def Role.withLabel (label : List Inline) : Role → Role
  | list l => list { l with item := { l.item with label } }
  | role => role

/-- An environment whose body is being read; its blocks, the last one first. -/
structure OpenEnvironment where
  marker : Marker
  role : Role
  blocks : List Block := []

/-! ## Inline content -/

/-- An opening brace that belongs to no command; one after an unknown command is kept as text. -/
structure Brace where
  marker : Marker
  kept : Bool

/-- Inline content being read: what was gathered and the open braces, innermost first. -/
structure Run where
  fragments : Fragments := {}
  braces : List Brace := []

/-- What an argument that is inline content is for. -/
inductive Purpose
  /-- A formatting command. -/
  | styled (command : Marker) (style : InlineStyle)
  /-- The text of a link. -/
  | linkText (command : Marker) (url : Text)
  /-- The text of a cell that spans columns. -/
  | spanning

/-- An argument being read, its opening brace, and the content that it interrupts. -/
structure OpenArgument where
  purpose : Purpose
  opener : Marker
  outer : Run

/-- A table whose current cell is being read; finished rows and cells, the last one first. -/
structure OpenTable where
  marker : Marker
  rows : List TableRow
  rowStart : Nat
  cells : List TableCell
  cellStart : Nat
  /-- How many columns the current cell spans. -/
  span : Nat

/-- What a line of inline content is. -/
inductive Line
  | paragraph (start : Nat)
  | heading (command : Marker) (level : Nat) (opener : Marker)
  | label (item : Marker) (opener : Marker)
  | cell (table : OpenTable)

/-- Inline content inside the innermost environment: the line, the run being read, and the arguments
that are open, innermost first. -/
structure OpenInline where
  line : Line
  run : Run := {}
  arguments : List OpenArgument := []

/-- What surrounds the current token, as far as it tells where inline content ends. -/
inductive Surround
  | paragraph
  | group (opener : Marker)
  | label (opener : Marker)
  | cell
  deriving DecidableEq, Repr

/-- Open constructs that a line counts for. -/
def Line.depth : Line → Nat
  | .paragraph _ => 0
  | .heading _ _ _ | .label _ _ | .cell _ => 1

/-- What surrounds the current token. -/
def OpenInline.surround (i : OpenInline) : Surround :=
  match i.run.braces, i.arguments, i.line with
  | brace :: _, _, _ => .group brace.marker
  | [], argument :: _, _ => .group argument.opener
  | [], [], .heading _ _ opener => .group opener
  | [], [], .label _ opener => .label opener
  | [], [], .paragraph _ => .paragraph
  | [], [], .cell _ => .cell

/-- Is this the inside of a table cell, however deep? -/
def OpenInline.inTable (i : OpenInline) : Bool :=
  match i.line with
  | .cell _ => true
  | _ => false

/-- How many constructs of inline content are open. -/
def OpenInline.depth (i : OpenInline) : Nat :=
  i.line.depth + i.run.braces.length
    + i.arguments.foldr (fun argument n => argument.outer.braces.length + 1 + n) 0

/-- The same with other fragments gathered. -/
def OpenInline.withFragments (i : OpenInline) (f : Fragments) : OpenInline :=
  { i with run := { i.run with fragments := f } }

/-! ## The state -/

/-- Everything known between two tokens: the cursor, the blocks of the document itself, the open
environments, innermost first, the open inline content, and the diagnostics.  Lists of what is
finished have the last one first. -/
structure State where
  cursor : Cursor
  blocks : List Block := []
  environments : List OpenEnvironment := []
  inline? : Option OpenInline := none
  diagnostics : List Diagnostic := []

/-- What does not change while a document is read. -/
structure Context where
  source : Source
  settings : Settings

namespace State

/-- Adds a diagnostic. -/
def warn (s : State) (cause : Degradation) (start stop : Nat) : State :=
  { s with diagnostics := ⟨cause, start, stop⟩ :: s.diagnostics }

/-- Adds a diagnostic about a token. -/
def warnAt (s : State) (cause : Degradation) (t : Token) : State := s.warn cause t.start t.stop

/-- How many constructs are open. -/
def depth (s : State) : Nat :=
  s.environments.length + (s.inline?.map OpenInline.depth).getD 0

/-- May one more construct be opened when `depth` are open? -/
def checkDepth (depth : Nat) (marker : Marker) : Except Failure Unit :=
  if nestingLimit < depth + 1 then throw ⟨.nestingTooDeep nestingLimit, marker⟩ else pure ()

/-- Does the innermost environment read a list? -/
def inList (s : State) : Bool := s.environments.head?.any (·.role.isList)

/-- Is the innermost environment a float around a table? -/
def inFloat (s : State) : Bool := s.environments.head?.any (·.role.isFloat)

/-- Adds blocks, the last one first, to the innermost environment. -/
def addBlocks (s : State) (blocks : List Block) : State :=
  match s.environments with
  | [] => { s with blocks := blocks ++ s.blocks }
  | e :: outer => { s with environments := { e with blocks := blocks ++ e.blocks } :: outer }

/-- The state with the cursor moved and other fragments gathered. -/
def gather (s : State) (i : OpenInline) (c : Cursor) (f : Fragments) : State :=
  { s with cursor := c, inline? := some (i.withFragments f) }

end State

end LatexMarkdown.Parse
