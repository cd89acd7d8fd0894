import LatexMarkdown.Number.Reading
import LatexMarkdown.Parse.CodeBody
import LatexMarkdown.Parse.Inline
/-!
  Reading blocks, and closing what is open.

  `State.step` goes on by one token together with what belongs to it.  Between blocks it skips
  spacing and opens the next block; inside inline content it reads on or closes the innermost thing
  that the token ends.  Closing a paragraph is the one step that passes no token.
-/
namespace LatexMarkdown.Parse

/-! ## Finished blocks -/

/-- A list item.  Its first paragraph is its inline content, and a label leads as strong text. -/
def listItem (start stop : Nat) (label : List Inline) (blocks : List Block) : ListItem :=
  -- Without a label and without a leading paragraph there is no inline content.
  let (content, blocks) :=
    match blocks with
    | .paragraph _ children :: rest => (children, rest)
    | _ => ([], blocks)
  let children :=
    match label.head?, label.getLast? with
    | some first, some last =>
      let stop := last.info.stop
      let strong := Inline.strong { start := first.info.start, stop } label
      if content.isEmpty then [strong]
      else strong :: .text { start := stop, stop } [0x20] :: content
    | _, _ => content
  { info := .span start stop, children, blocks }

/-- A heading level moved into range. -/
def clampLevel (level : Int) : Nat := if level ≤ 1 then 1 else if level = 2 then 2 else 3

namespace State

/-! ## Lists -/

/-- Finishes the open item of a list.  What comes before the first item marker makes an item only if
it holds something, and that is reported. -/
def finishItem (s : State) (e : OpenEnvironment) (l : OpenList) : State × List ListItem :=
  let finished := listItem l.item.start s.cursor.lastStop l.item.label e.blocks.reverse
  if !l.item.implicit then (s, finished :: l.items)
  else if e.blocks.isEmpty then (s, l.items)
  else
    let info := { finished.info with flags := { synthetic := true } }
    (s.warnAt (.implicitListItem e.marker.text) e.marker.token, { finished with info } :: l.items)

/-- Begins the label of the item with the given marker, when one follows. -/
def beginLabel (s : State) (marker : Marker) : Except Failure State :=
  match startArgument? .bracketOpen s.cursor with
  | some opened => do
    checkDepth s.depth marker
    return { s with
      cursor := opened.advance
      inline? := some { line := .label marker opened.marker } }
  | none => .ok s

/-- Begins a list item at the current token, the item marker. -/
def beginItem (s : State) (e : OpenEnvironment) (outer : List OpenEnvironment) (l : OpenList) :
    Except Failure State :=
  let (s, items) := s.finishItem e l
  let marker := s.cursor.marker
  let role : Role :=
    .list { l with items, item := { start := marker.token.start, implicit := false } }
  beginLabel
    { s with cursor := s.cursor.advance, environments := { e with role, blocks := [] } :: outer }
    marker

/-! ## Tables -/

/-- What may stand before the content of a cell without belonging to it. -/
def isCellSpacing (t : Token) : Bool := t.kind == .comment || t.isSpacing

/-- The table's current cell as open inline content. -/
def openCell (table : OpenTable) : OpenInline := { line := .cell table }

/-- Begins a cell whose content is an argument of the current command, which says how many columns
it spans. -/
def beginSpanningCell (ctx : Context) (s : State) (table : OpenTable) : Except Failure State := do
  let command := s.cursor.marker
  let flaw := missingArgument command
  let (count, c) ← readGroup ctx.source command flaw s.cursor.advance
  let (_, c) ← readGroup ctx.source command flaw c
  -- A count too large for a number, or none at all, counts as one.
  let span := ((Number.leadingInt? count).bind fun n => (Number.ofInt n).toInt?).getD 1
  let i := openCell { table with span := max 1 span.toNat }
  openArgument { s with cursor := c, inline? := some i } i command flaw .spanning

/-- Begins a cell at the current token. -/
def beginCell (ctx : Context) (s : State) (table : OpenTable) : Except Failure State :=
  let c := s.cursor.advanceBy (s.cursor.countWhile isCellSpacing)
  let table := { table with cellStart := s.cursor.current.start, span := 1 }
  if c.current.isCommand "multicolumn" then beginSpanningCell ctx { s with cursor := c } table
  else .ok { s with cursor := c, inline? := some (openCell table) }

/-- Begins a table row at the current token. -/
def beginRow (ctx : Context) (s : State) (table : OpenTable) : Except Failure State :=
  beginCell ctx s { table with rowStart := s.cursor.current.start, cells := [] }

/-- The table with its current cell finished; a spanning cell is followed by empty ones. -/
def finishCell (s : State) (table : OpenTable) (content : Fragments) : OpenTable :=
  let stop := s.cursor.lastStop
  let cell : TableCell :=
    { info := .span table.cellStart (max table.cellStart stop), children := content.finish }
  let empty : TableCell := { info := .span stop stop, children := [] }
  { table with cells := List.replicate (table.span - 1) empty ++ cell :: table.cells }

/-- The table with its current row finished; a row without any content is dropped. -/
def finishRow (s : State) (table : OpenTable) : OpenTable :=
  let row : TableRow :=
    { info := .span table.rowStart (max table.rowStart s.cursor.lastStop)
      cells := table.cells.reverse }
  if row.cells.any (!·.children.isEmpty) then { table with rows := row :: table.rows } else table

/-- Warns of every row with fewer cells than the widest. -/
def warnRagged (s : State) (environment : Text) (columns : Nat) (rows : List TableRow) : State :=
  rows.foldl (fun s r =>
    if r.cells.length < columns then
      s.warn (.raggedTableRow r.cells.length columns environment) r.info.start r.info.stop
    else s) s

/-- Past the end marker of an environment, which should be the current token. -/
def expectEnd (c : Cursor) (begun : Marker) : Except Failure Cursor :=
  let t := c.current
  if t.kind = .endOfFile then .error ⟨.unclosedEnvironment begun.text, begun⟩
  else if t.kind = .envEnd ∧ t.text = begun.text then .ok c.advance
  else .error ⟨.mismatchedEnvironment t.text begun.text, c.marker⟩

/-- Ends a row at the current token, a forced line break, skips the distance in brackets behind it
and begins the next row. -/
def nextRow (ctx : Context) (s : State) (table : OpenTable) : Except Failure State :=
  let after := s.cursor.advance
  let after := if after.current.kind = .bracketOpen then skipOptionalArgument after else after
  beginRow ctx { s with cursor := after } (s.finishRow table)

/-- Ends a table at the current token. -/
def closeTable (s : State) (table : OpenTable) : Except Failure State := do
  let table := s.finishRow table
  let after ← expectEnd s.cursor table.marker
  let rows := table.rows.reverse
  let s := s.warnRagged table.marker.text (TableRow.columnCount rows) rows
  let block := Block.table (.span table.marker.token.start after.lastStop) rows
  return { s with cursor := after, inline? := none }.addBlocks [block]

/-- Ends a cell at the current token, and with it a row or the table where that is what the token
ends. -/
def closeCell (ctx : Context) (s : State) (table : OpenTable) (content : Fragments) :
    Except Failure State :=
  let table := s.finishCell table content
  match s.cursor.current.kind with
  | .alignmentTab => beginCell ctx { s with cursor := s.cursor.advance } table
  | .lineBreak => nextRow ctx s table
  | _ => closeTable s table

/-! ## Closing -/

/-- Ends a heading; the current token is its closing brace. -/
def closeHeading (ctx : Context) (s : State) (command : Marker) (level : Nat)
    (content : Fragments) : State :=
  let after := s.cursor.advance
  let requested : Int := level + ctx.settings.headingLevelOffset
  let clamped := clampLevel requested
  let flags : NodeFlags := { clamped := clamped ≠ requested }
  let info := { NodeInfo.span command.token.start after.lastStop with flags }
  let s := { s with cursor := after, inline? := none }.addBlocks
    [.heading info (.ofNat clamped) content.finish]
  if flags.clamped then
    s.warnAt (.headingLevelClamped requested clamped command.text) command.token
  else s

/-- Ends an item label; the current token is its closing bracket. -/
def closeLabel (s : State) (content : Fragments) : State :=
  let s := { s with cursor := s.cursor.advance, inline? := none }
  match s.environments with
  | [] => s
  | e :: outer =>
    { s with environments := { e with role := e.role.withLabel content.finish } :: outer }

/-- Ends a paragraph before the current token; one without content is dropped. -/
def closeParagraph (s : State) (start : Nat) (content : Fragments) : State :=
  let children := content.finish
  let s := { s with inline? := none }
  if children.isEmpty then s
  else s.addBlocks [.paragraph (.span start s.cursor.lastStop) children]

/-- Ends the innermost thing that is inline content, at the token that ends it. -/
def closeInline (ctx : Context) (s : State) (i : OpenInline) : Except Failure State :=
  let t := s.cursor.current
  let content := i.run.fragments
  match i.run.braces, i.arguments with
  | brace :: braces, _ =>
    let s := { s with cursor := s.cursor.advance }
    if brace.kept then
      let fragments := content.pushText t.start t.stop "\x7d"
      openKeptBraces s { i with run := { fragments, braces } }
    else return { s with inline? := some { i with run := { i.run with braces } } }
  | [], argument :: arguments =>
    let fragments := closeArgument argument.purpose content t.stop argument.outer.fragments
    return { s with
      cursor := s.cursor.advance
      inline? := some { i with run := { argument.outer with fragments }, arguments } }
  | [], [] =>
    match i.line with
    | .paragraph start => return s.closeParagraph start content
    | .heading command level _ => return s.closeHeading ctx command level content
    | .label _ _ => return s.closeLabel content
    | .cell table => s.closeCell ctx table content

/-- Ends the innermost environment, whose end marker is the current token. -/
def closeEnvironment (s : State) (e : OpenEnvironment) (outer : List OpenEnvironment) : State :=
  let after := s.cursor.advance
  let info := NodeInfo.span e.marker.token.start after.lastStop
  match e.role with
  | .inPlace | .float => { s with cursor := after, environments := outer }.addBlocks e.blocks
  | .quote =>
    { s with cursor := after, environments := outer }.addBlocks [.quote info e.blocks.reverse]
  | .list l =>
    let (s, items) := s.finishItem e l
    { s with cursor := after, environments := outer }.addBlocks [.list info l.ordered items.reverse]

/-- Goes on inside inline content: closes what the current token ends, and else reads the token. -/
def takeInline (ctx : Context) (s : State) (i : OpenInline) : Except Failure State :=
  if i.surround.endsAt s.inList s.cursor.current then closeInline ctx s i else takeToken ctx s i

/-! ## Opening -/

/-- Begins a heading at the current command. -/
def beginHeading (s : State) (level : Nat) : Except Failure State := do
  let command := s.cursor.marker
  let opened ← startGroup command (missingArgument command) (skipOptionalArgument s.cursor.advance)
  checkDepth s.depth opened.marker
  return { s with
    cursor := opened.advance
    inline? := some { line := .heading command level opened.marker } }

/-- Begins an environment whose body is blocks; `c` stands behind its begin marker. -/
def pushEnvironment (s : State) (c : Cursor) (begun : Marker) (role : Role) : State :=
  { s with cursor := c, environments := { marker := begun, role } :: s.environments }

/-- Reads a code environment to its end; `c` stands behind its begin marker. -/
def takeCode (s : State) (c : Cursor) (begun : Marker) : Except Failure State := do
  let hasBody := c.current.kind = .rawText
  let body : Text := if hasBody then c.current.text else []
  let after ← expectEnd (if hasBody then c.advance else c) begun
  let code := CodeBody.ofBody begun.text body
  return { s with cursor := after }.addBlocks
    [.code (.span begun.token.start after.lastStop) code.text code.language]

/-- Drops a comment environment; `c` stands behind its begin marker. -/
def skipComment (s : State) (c : Cursor) (begun : Marker) : Except Failure State := do
  let after ← expectEnd (if c.current.kind = .rawText then c.advance else c) begun
  return { s with cursor := after }

/-- Reads a mathematics environment to its end; `c` stands behind its begin marker. -/
def takeMathEnvironment (s : State) (ctx : Context) (c : Cursor) (begun : Marker)
    (aligned : Bool) : Except Failure State :=
  let closes (t : Token) : Bool := t.kind == .envEnd && t.text == begun.text
  match textUpTo? ctx.source closes c.ahead with
  | some (text, n) =>
    let after := c.advanceBy n
    let environment := if aligned then some begun.text else none
    return { s with cursor := after }.addBlocks
      [.math (.span begun.token.start after.lastStop) text.trim environment]
  | none => .error ⟨.unclosedEnvironment begun.text, begun⟩

/-- Begins a list with what comes before its first item marker; `c` stands behind its begin
marker. -/
def beginList (s : State) (c : Cursor) (begun : Marker) (ordered : Bool) : State :=
  let c := c.skipSpacing
  s.pushEnvironment c begun
    (.list { ordered, item := { start := c.current.start, implicit := true } })

/-- Past the arguments of an environment; `c` stands behind its begin marker. -/
def skipArguments (ctx : Context) (c : Cursor) (begun : Marker) : Except Failure Cursor :=
  skipGroups ctx.source begun (missingArgument begun) (environmentArgumentCount begun.text)
    (skipOptionalArgument c)

/-- Begins a table; `c` stands behind its begin marker. -/
def beginTable (s : State) (ctx : Context) (c : Cursor) (begun : Marker) :
    Except Failure State := do
  let c ← skipArguments ctx c begun
  beginRow ctx { s with cursor := c }
    { marker := begun, rows := [], rowStart := 0, cells := [], cellStart := 0, span := 1 }

/-- Begins an environment whose blocks stand in place; `c` stands behind its begin marker. -/
def beginInPlace (s : State) (ctx : Context) (c : Cursor) (begun : Marker) :
    Except Failure State := do
  let c ← skipArguments ctx c begun
  return s.pushEnvironment c begun .inPlace

/-- Begins the environment whose begin marker is the current token. -/
def beginEnvironment (ctx : Context) (s : State) : Except Failure State := do
  let begun := s.cursor.marker
  let c := s.cursor.advance
  checkDepth s.depth begun
  match EnvironmentKind.ofName? begun.text with
  | some .unorderedList => return s.beginList c begun false
  | some .orderedList => return s.beginList c begun true
  | some .table => s.beginTable ctx c begun
  | some .tableFloat => return s.pushEnvironment (skipOptionalArgument c) begun .float
  | some .codeBlock => s.takeCode c begun
  | some .comment => s.skipComment c begun
  | some .quote => return s.pushEnvironment c begun .quote
  | some .mathBlock => s.takeMathEnvironment ctx c begun false
  | some .alignedMath => s.takeMathEnvironment ctx c begun true
  | some .transparent => s.beginInPlace ctx c begun
  | none => (s.warnAt (.unknownEnvironment begun.text) begun.token).beginInPlace ctx c begun

/-- Reads display mathematics that stands between blocks; without a body it is nothing. -/
def takeDisplayMath (ctx : Context) (s : State) : Except Failure State := do
  let (text, after) ← readMath ctx.source s.cursor
  let s' := { s with cursor := after }
  return if text = [] then s'
    else s'.addBlocks [.math (.span s.cursor.current.start after.lastStop) text none]

/-- Begins a paragraph at the current token; one that the token ends is over at once. -/
def beginParagraph (ctx : Context) (s : State) : Except Failure State :=
  let i : OpenInline := { line := .paragraph s.cursor.current.start }
  takeInline ctx { s with inline? := some i } i

/-- How many arguments are dropped with a command between blocks, when it is one that is dropped. -/
def droppedCount? (s : State) (command : Text) : Option Nat :=
  droppedArgumentCount? command <|>
    if s.inFloat then tableRuleArgumentCount? command else none

/-- Reads a command between blocks that is no item marker. -/
def takeOtherCommand (ctx : Context) (s : State) : Except Failure State :=
  let name := s.cursor.current.text
  match headingLevel? name, s.droppedCount? name with
  | some level, _ => beginHeading s level
  | none, some count => do
    let after ← skipCommand ctx.source count s.cursor
    return { s with cursor := after }
  | none, none => beginParagraph ctx s

/-- Reads a command between blocks. -/
def takeBlockCommand (ctx : Context) (s : State) : Except Failure State :=
  match s.environments with
  | ⟨marker, .list l, blocks⟩ :: outer =>
    if s.cursor.current.text = "item" then beginItem s ⟨marker, .list l, blocks⟩ outer l
    else takeOtherCommand ctx s
  | _ => takeOtherCommand ctx s

/-- Reads on between blocks where neither the document nor an environment ends. -/
def beginBlock (ctx : Context) (s : State) : Except Failure State :=
  let t := s.cursor.current
  match t.kind with
  | .envBegin => beginEnvironment ctx s
  | .mathDisplay => if opensDisplay t then takeDisplayMath ctx s else beginParagraph ctx s
  | .command => takeBlockCommand ctx s
  | _ => beginParagraph ctx s

/-- Ends the innermost environment at the current token, which is an end marker. -/
def endEnvironment (s : State) : Except Failure State :=
  let found := s.cursor.marker
  match s.environments with
  | [] => .error ⟨.unexpectedEnvironmentEnd found.text, found⟩
  | e :: outer =>
    if found.text = e.marker.text then .ok (s.closeEnvironment e outer)
    else .error ⟨.mismatchedEnvironment found.text e.marker.text, found⟩

/-- Ends the document at the end of the tokens. -/
def endDocument (s : State) : Except Failure Unit :=
  match s.environments with
  | [] => .ok ()
  | e :: _ => .error ⟨.unclosedEnvironment e.marker.text, e.marker⟩

/-- Reads on between blocks; none at the end of the document. -/
def takeBlock (ctx : Context) (s : State) : Except Failure (Option State) :=
  let s := { s with cursor := s.cursor.skipSpacing }
  match s.cursor.current.kind with
  | .endOfFile => (fun _ => none) <$> endDocument s
  | .envEnd => some <$> endEnvironment s
  | _ => some <$> beginBlock ctx s

/-- Reads on; none at the end of the document. -/
def step (ctx : Context) (s : State) : Except Failure (Option State) :=
  match s.inline? with
  | none => takeBlock ctx s
  | some i => some <$> takeInline ctx s i

end State

end LatexMarkdown.Parse
