import LatexMarkdown.Document
import LatexMarkdown.Number.Shortest
import LatexMarkdown.Settings
import LatexMarkdown.Text.Blank
import LatexMarkdown.Vocabulary
/-!
  A document as Markdown.

  Blocks are written as lines, one line break between them and no blank lines.  A heading and a
  table row are single lines, so a forced break inside them is a space; elsewhere it is a line
  break.  List items indent what belongs to them by two spaces a level, and every line of a quote
  has the quote mark in front.
-/
namespace LatexMarkdown.Markdown

variable {P : Type}

/-! ## Inline content -/

/-- The longest run of backticks in a text, when `run` of them come right before it. -/
def longestBackticks (run : Nat) : Text → Nat
  | [] => run
  | u :: rest =>
    if u = 0x60 then longestBackticks (run + 1) rest else max run (longestBackticks 0 rest)

/-- So many backticks. -/
def backticks (n : Nat) : Text := List.replicate n 0x60

/-- A code span.  With backticks inside it the delimiters are longer than any run of them, and a
space keeps them apart from the code. -/
def codeSpan (code : Text) : Text :=
  match longestBackticks 0 code with
  | 0 => backticks 1 ++ code ++ backticks 1
  | n => backticks (n + 1) ++ " " ++ code ++ " " ++ backticks (n + 1)

/-- A link destination, with what would end it escaped. -/
def escapeDestination (url : Text) : Text :=
  url.replaceEach (fun u => u == 0x20 || u == 0x28 || u == 0x29) fun u =>
    if u = 0x20 then "%20" else if u = 0x28 then "%28" else "%29"

/-- Is it mathematics? -/
def isMath : Inline P → Bool
  | .math _ _ => true
  | _ => false

mutual

/-- Inline content as text; `hardBreak` is what a forced break becomes, and `afterMath` says that
mathematics comes right before, which a space keeps apart from mathematics. -/
def inlineText (hardBreak : Text) (afterMath : Bool) : List (Inline P) → Text
  | [] => []
  | n :: rest => spanText hardBreak afterMath n ++ inlineText hardBreak (isMath n) rest

/-- One inline node as text. -/
def spanText (hardBreak : Text) (afterMath : Bool) : Inline P → Text
  | .text _ t => t
  | .strong _ cs => "**" ++ inlineText hardBreak false cs ++ "**"
  | .emphasis _ cs => "*" ++ inlineText hardBreak false cs ++ "*"
  | .code _ t => codeSpan t
  | .link _ destination cs =>
    "[" ++ inlineText hardBreak false cs ++ "](" ++ escapeDestination destination ++ ")"
  | .math _ t => (if afterMath then " " else "") ++ "$$" ++ t ++ "$$"
  | .hardBreak _ => hardBreak

end

/-- Inline content on one line. -/
def oneLine (ns : List (Inline P)) : Text := inlineText [0x20] false ns

/-- Inline content as lines. -/
def inlineLines (ns : List (Inline P)) : List Text := (inlineText [0x0A] false ns).splitOn 0x0A

/-! ## Blocks -/

/-- The lines of a text, where a carriage return before the line feed belongs to the break. -/
def codeLines (code : Text) : List Text :=
  let pieces := code.splitOn 0x0A
  pieces.dropLast.map (fun l => if l.getLast? = some 0x0D then l.dropLast else l)
    ++ pieces.getLast?.toList

/-- A fenced code block.  The fence is longer than any run of backticks in the code. -/
def codeBlockLines (code : Text) (language : Option Text) : List Text :=
  let fence := backticks (max 3 (longestBackticks 0 code + 1))
  let body := if code = [] then [] else codeLines code
  (fence ++ language.getD []) :: body ++ [fence]

/-- Display mathematics; an environment of several lines is wrapped again. -/
def mathBlockText (math : Text) (environment : Option Text) : Text :=
  match environment with
  | none => "$$" ++ math ++ "$$"
  | some environment =>
    let wrapper := alignedWrapper environment
    "$$\\begin\x7b" ++ wrapper ++ "\x7d" ++ math ++ "\\end\x7b" ++ wrapper ++ "\x7d$$"

/-- The text of a table cell, with the pipes in it escaped. -/
def cellText (c : TableCell P) : Text := (oneLine c.children).replaceEach (· == 0x7C) fun _ => "\\|"

/-- A table row, filled up with empty cells. -/
def rowLine (columns : Nat) (r : TableRow P) : Text :=
  let cells := r.cells.map cellText
  "| " ++ Text.join " | " (cells ++ List.replicate (columns - cells.length) []) ++ " |"

/-- The line between the first row of a table and the others. -/
def separatorLine (columns : Nat) : Text := "|" ++ Text.join [] (List.replicate columns " --- |")

/-- A table: the first row, the separator, the other rows. -/
def tableLines (rows : List (TableRow P)) : List Text :=
  let columns := TableRow.columnCount rows
  match rows with
  | [] => []
  | first :: rest =>
    rowLine columns first :: separatorLine columns :: rest.map (rowLine columns)

/-- How many marks a heading level asks for: its whole part. -/
def markCount (level : Number) : Int := level.truncate?.getD 0

/-- The mark in front of a heading. -/
def headingMark (level : Number) : Text := List.replicate (markCount level).toNat 0x23 ++ [0x20]

/-- A line of a quote. -/
def quoteLine (line : Text) : Text := if line = [] then ">" else "> " ++ line

/-- The lines of a quote, the icon at the front of the first. -/
def quoteLines (icon : Text) : List Text → List Text
  | [] => [quoteLine icon]
  | first :: rest =>
    let first :=
      if icon = [] then first else if first = [] then icon else icon ++ " " ++ first
    (first :: rest).map quoteLine

/-- The indentation of so many list levels. -/
def indentation (depth : Nat) : Text := List.replicate (2 * depth) 0x20

/-- The mark of a list item; `index` counts from 0. -/
def itemMark (ordered : Bool) (index : Nat) : Text :=
  if ordered then Text.ofNat (index + 1) ++ ". " else "- "

/-- The lines of an item's own inline content: the mark on the first, the others indented one level
further. -/
def itemLines (depth : Nat) (mark : Text) (content : List Text) : List Text :=
  match content with
  | [] => []
  | first :: rest =>
    Text.trimEnd (indentation depth ++ mark ++ first) :: rest.map (indentation (depth + 1) ++ ·)

/-- A line of a block in a list item; an empty line stays empty. -/
def indentLine (depth : Nat) (line : Text) : Text :=
  if line = [] then [] else indentation (depth + 1) ++ line

mutual

/-- The lines of a block; `depth` is the level of list items it stands in, which counts for lists
only. -/
def blockLines (icon : Text) (depth : Nat) : Block P → List Text
  | .paragraph _ cs => inlineLines cs
  | .heading _ level cs => [headingMark level ++ oneLine cs]
  | .quote _ bs => quoteLines icon (blocksLines icon 0 bs)
  | .list _ ordered items => itemsLines icon depth ordered 0 items
  | .code _ code language => codeBlockLines code language
  | .table _ rows => tableLines rows
  | .math _ math environment => (mathBlockText math environment).splitOn 0x0A

/-- The lines of blocks. -/
def blocksLines (icon : Text) (depth : Nat) : List (Block P) → List Text
  | [] => []
  | b :: rest => blockLines icon depth b ++ blocksLines icon depth rest

/-- The lines of list items, the first of them at `index`. -/
def itemsLines (icon : Text) (depth : Nat) (ordered : Bool) (index : Nat) :
    List (ListItem P) → List Text
  | [] => []
  | ⟨_, children, blocks⟩ :: rest =>
    itemLines depth (itemMark ordered index) (inlineLines children)
      ++ nestedLines icon depth blocks
      ++ itemsLines icon depth ordered (index + 1) rest

/-- The lines of the blocks of a list item: a list one level further, any other block indented. -/
def nestedLines (icon : Text) (depth : Nat) : List (Block P) → List Text
  | [] => []
  | .list _ ordered items :: rest =>
    itemsLines icon (depth + 1) ordered 0 items ++ nestedLines icon depth rest
  | b :: rest => (blockLines icon depth b).map (indentLine depth) ++ nestedLines icon depth rest

end

/-- A document as Markdown. -/
def render (settings : Settings) (d : Document P) : Text :=
  Text.join [0x0A] (blocksLines settings.calloutIcon 0 d.children)

/-! ## Room -/

/-- The most units that a text may have. -/
def lengthLimit : Nat := 536870888

/-- The most cells that a row may have.  A table with more in a row is refused in other words. -/
def rowLimit : Nat := 4294967295

/-- What cannot be written: a heading whose level is no count of marks, below zero or more than a text
has room for, or a table that has no room in a text whatever its cells say. -/
structure SizeError where
  extent : Extent
  deriving DecidableEq, Repr

/-- Can a heading of a level be written? -/
def isWritable : Number → Bool
  | .nan => true
  | .infinite _ => false
  | level => 0 ≤ markCount level && markCount level ≤ lengthLimit

/-- The units of a table of empty cells: what stands around the cells of its rows, the separator, and
the line feeds between the lines. -/
def frameLength (rows columns : Nat) : Nat := rows * (3 * columns + 2) + (6 * columns + 1)

/-- Is there room for the line of a heading or for every line of a table? -/
def hasLines : Extent → Bool
  | .heading level => isWritable level
  | .table _ columns => 6 * columns + 1 ≤ lengthLimit

/-- Is there room for the lines together? -/
def hasFrame : Extent → Bool
  | .heading _ => true
  | .table rows columns => frameLength rows columns ≤ lengthLimit

/-- The wording of the error. -/
def SizeError.message (e : SizeError) : Text :=
  match e.extent with
  | .heading level =>
    if level.truncate?.any (0 ≤ ·) then "Invalid string length"
    else "Invalid count value: " ++ level.text
  | .table _ columns => if columns ≤ rowLimit then "Invalid string length" else "Invalid array length"

/-- The first heading or table that there is no room for.  Lines are written before they are put
together. -/
def sizeError? (bs : List (Block P)) : Option SizeError :=
  let extents := Block.allExtents bs
  (extents.find? (!hasLines ·) <|> extents.find? (!hasFrame ·)).map SizeError.mk

/-- A document as Markdown, if there is room for it. -/
def write (settings : Settings) (d : Document P) : Except SizeError Text :=
  match sizeError? d.children with
  | some e => .error e
  | none => .ok (render settings d)

end LatexMarkdown.Markdown
