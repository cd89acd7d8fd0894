import LatexMarkdown.Parse.State
/-!
  Reading inline content token by token.

  `OpenInline.endsAt` tells the tokens that end what is being read, and `takeToken` reads any other
  one together with what belongs to it.  Commands whose argument is inline content only open it
  here; `closeArgument` says what becomes of it.
-/
namespace LatexMarkdown.Parse

/-! ## Where inline content ends -/

/-- Does the token end what is being read?  A paragraph ends at a blank line and wherever a block
begins or an environment ends, a group at its closing brace, a label at a closing bracket, and a
cell at the next cell, row or end of environment. -/
def Surround.endsAt (inList : Bool) (t : Token) : Surround → Bool
  | .paragraph =>
    match t.kind with
    | .endOfFile | .envBegin | .envEnd => true
    | .newLine => t.isBlankLine
    | .mathDisplay => opensDisplay t
    | .command => (headingLevel? t.text).isSome || (inList && t.text == "item")
    | _ => false
  | .group _ => t.kind == .groupClose
  | .label _ => t.kind == .bracketClose
  | .cell =>
    t.kind == .endOfFile || t.kind == .envEnd || t.kind == .lineBreak || t.kind == .alignmentTab

/-- The marker that stays unclosed when inline content is cut off; the current one where nothing was
opened. -/
def Surround.opener (current : Marker) : Surround → Marker
  | .group opener => opener
  | .label opener => opener
  | .paragraph => current
  | .cell => current

/-- How many arguments are dropped with a command in inline content, when it is one that is
dropped. -/
def OpenInline.droppedCount? (i : OpenInline) (command : Text) : Option Nat :=
  droppedArgumentCount? command <|>
    if i.surround = .cell then tableRuleArgumentCount? command else none

namespace State

/-! ## Braces and arguments -/

/-- Opens braces of no command at the current token, which is the opening brace. -/
def openBrace (s : State) (i : OpenInline) (kept : Bool) : Except Failure State := do
  let opener := s.cursor.marker
  checkDepth s.depth opener
  let t := opener.token
  let fragments :=
    if kept then i.run.fragments.pushText t.start t.stop "\x7b" else i.run.fragments
  let run : Run := { fragments, braces := ⟨opener, kept⟩ :: i.run.braces }
  return { s with cursor := s.cursor.advance, inline? := some { i with run } }

/-- Opens the braces right behind an unknown command, or behind others of it, when there are any. -/
def openKeptBraces (s : State) (i : OpenInline) : Except Failure State :=
  let s := { s with inline? := some i }
  if s.cursor.current.kind = .groupOpen then openBrace s i true else pure s

/-- Opens a required argument that is inline content; the state's cursor stands behind the command
and what was read of it. -/
def openArgument (s : State) (i : OpenInline) (owner : Marker) (flaw : Flaw) (purpose : Purpose) :
    Except Failure State := do
  let opened ← startGroup owner flaw s.cursor
  let opener := opened.marker
  checkDepth s.depth opener
  let argument : OpenArgument := { purpose, opener, outer := i.run }
  return { s with
    cursor := opened.advance
    inline? := some { i with run := {}, arguments := argument :: i.arguments } }

/-- What a finished argument adds to the content that it interrupted; `stop` is where its closing
brace ends.  Space at the edges of formatted content goes outside it. -/
def closeArgument (purpose : Purpose) (argument : Fragments) (stop : Nat) (outer : Fragments) :
    Fragments :=
  let children := argument.finish
  match purpose with
  | .styled command style =>
    let start := command.token.start
    let empty := children.isEmpty
    let outer :=
      if argument.leadingSpace || (argument.trailingSpace && empty) then
        outer.pushText start start [0x20]
      else outer
    if empty then outer
    else
      let outer :=
        match style with
        | .strong => outer.push (.strong (.span start stop) children)
        | .emphasis => outer.push (.emphasis (.span start stop) children)
        | .code => outer.push (.code (.span start stop) (Inline.plainTextOf children))
        | .plain => outer.pushAll children
      if argument.trailingSpace then outer.pushText stop stop [0x20] else outer
  | .linkText command url =>
    let span := NodeInfo.span command.token.start stop
    let children := if children.isEmpty then [.text span url] else children
    outer.push (.link span url children)
  | .spanning => outer.pushAll children

/-! ## Commands -/

/-- Keeps an unknown command as text. -/
def takeUnknownCommand (s : State) (i : OpenInline) : Except Failure State :=
  let t := s.cursor.current
  let s := s.warnAt (.unknownCommand t.text) t
  let fragments := i.run.fragments.pushText t.start t.stop (0x5C :: t.text)
  openKeptBraces { s with cursor := s.cursor.advance } (i.withFragments fragments)

/-- Drops the current command with so many arguments. -/
def dropCommand (ctx : Context) (s : State) (i : OpenInline) (count : Nat) :
    Except Failure State := do
  let after ← skipCommand ctx.source count s.cursor
  return s.gather i after i.run.fragments

/-- Reads the current command, a link with a text of its own, up to that text. -/
def takeLink (ctx : Context) (s : State) (i : OpenInline) : Except Failure State := do
  let command := s.cursor.marker
  let flaw : Flaw := .malformedLink command.text
  let (url, after) ← readGroup ctx.source command flaw s.cursor.advance
  openArgument { s with cursor := after } i command flaw (.linkText command url.trim)

/-- Reads the current command, a link that is its own text. -/
def takeUrl (ctx : Context) (s : State) (i : OpenInline) : Except Failure State := do
  let command := s.cursor.marker
  let (url, after) ← readGroup ctx.source command (missingArgument command) s.cursor.advance
  let span := NodeInfo.span command.token.start after.lastStop
  return s.gather i after (i.run.fragments.push (.link span url.trim [.text span url.trim]))

/-- Reads the current command, verbatim code, whose text is the next token. -/
def takeVerbatim (s : State) (i : OpenInline) : Except Failure State :=
  let command := s.cursor.marker
  let raw := s.cursor.advance.current
  if raw.kind = .rawText then
    .ok (s.gather i s.cursor.advance.advance
      (i.run.fragments.push (.code (.span command.token.start raw.stop) raw.text)))
  else .error ⟨missingArgument command, command⟩

/-- Reads the current command, a forced line break. -/
def takeForcedBreak (s : State) (i : OpenInline) : State :=
  let t := s.cursor.current
  s.gather i s.cursor.advance (i.run.fragments.push (.hardBreak (.span t.start t.stop)))

/-- Reads the current command and what belongs to it. -/
def takeCommand (ctx : Context) (s : State) (i : OpenInline) : Except Failure State :=
  let command := s.cursor.marker
  let name := command.text
  if (headingLevel? name).isSome then .error ⟨.nestedHeading name, command⟩
  else
    match i.droppedCount? name, InlineStyle.ofCommand? name with
    | some count, _ => dropCommand ctx s i count
    | none, some style =>
      openArgument { s with cursor := s.cursor.advance } i command (missingArgument command)
        (.styled command style)
    | none, none =>
      if name = "newline" then .ok (takeForcedBreak s i)
      else if name = "href" then takeLink ctx s i
      else if name = "url" then takeUrl ctx s i
      else if name = "verb" ∨ name = "verb*" then takeVerbatim s i
      else takeUnknownCommand s i

/-! ## Tokens -/

/-- Keeps the current token as it is spelled. -/
def takeLiteral (ctx : Context) (s : State) (i : OpenInline) : State :=
  let t := s.cursor.current
  s.gather i s.cursor.advance
    (i.run.fragments.pushText t.start t.stop (ctx.source.spelling t))

/-- Reads the current comment: nothing in a table, elsewhere text that ends its line. -/
def takeComment (s : State) (i : OpenInline) : State :=
  let t := s.cursor.current
  let after := s.cursor.advance
  if i.inTable then s.gather i after i.run.fragments
  else
    let fragments := i.run.fragments.pushText t.start t.stop (0x25 :: t.text)
    let next := after.current
    if next.kind = .newLine ∧ !next.isBlankLine then
      s.gather i after.advance (fragments.push (.hardBreak (.span next.start next.stop)))
    else s.gather i after fragments

/-- Reads the current forced line break, and the distance in brackets behind it. -/
def takeLineBreak (s : State) (i : OpenInline) : State :=
  let t := s.cursor.current
  let after := s.cursor.advance
  let after := if after.current.kind = .bracketOpen then skipOptionalArgument after else after
  s.gather i after (i.run.fragments.push (.hardBreak (.span t.start t.stop)))

/-- Reads the current token, inline mathematics or a closing delimiter that stays as it is. -/
def takeMath (ctx : Context) (s : State) (i : OpenInline) : Except Failure State :=
  let t := s.cursor.current
  if t.text = "\\)" ∨ t.text = "\\]" then .ok (takeLiteral ctx s i)
  else do
    let (spans, after) ← readInlineMath ctx.source s.cursor
    return s.gather i after (spans.foldl Fragments.push i.run.fragments)

/-- Reads the current token, which is text. -/
def takeText (s : State) (i : OpenInline) : State :=
  let t := s.cursor.current
  let s := if t.flags.malformed then s.warnAt (.malformedEscape t.text) t else s
  s.gather i s.cursor.advance (i.run.fragments.pushText t.start t.stop t.text)

/-- Reads the current token, a line break in the source, as a space. -/
def takeSpace (s : State) (i : OpenInline) : State :=
  let t := s.cursor.current
  s.gather i s.cursor.advance (i.run.fragments.pushText t.start t.stop [0x20])

/-- Reads the current token, which does not end the content, and what belongs to it. -/
def takeToken (ctx : Context) (s : State) (i : OpenInline) : Except Failure State :=
  let current := s.cursor.marker
  match current.token.kind with
  | .endOfFile | .envEnd =>
    let opener := i.surround.opener current
    .error ⟨.unclosedGroup opener.text, opener⟩
  | .envBegin => .error ⟨.nestedEnvironment current.text, current⟩
  | .groupClose => .error ⟨.unexpectedGroupClose, current⟩
  | .text | .rawText => .ok (takeText s i)
  | .newLine => .ok (takeSpace s i)
  | .comment => .ok (takeComment s i)
  | .lineBreak => .ok (takeLineBreak s i)
  | .groupOpen => openBrace s i false
  | .mathInline | .mathDisplay => takeMath ctx s i
  | .command => takeCommand ctx s i
  | .unknown | .bracketOpen | .bracketClose | .alignmentTab => .ok (takeLiteral ctx s i)

end State

end LatexMarkdown.Parse
