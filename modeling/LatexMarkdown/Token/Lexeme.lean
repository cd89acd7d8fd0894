import LatexMarkdown.Token
/-!
  One lexeme read off the front of a text.

  `Lexeme.read` says, for a reading mode and a text that is not empty, what the next lexeme is and
  how many units it spans.  It knows nothing of offsets or lines.  In normal mode the category of
  the first unit decides; the raw mode reads the body of a raw environment and the verbatim mode
  the argument of a `\verb`.
-/
namespace LatexMarkdown

/-- What a unit means to the scanner. -/
inductive Category
  | escape
  | groupOpen
  | groupClose
  | bracketOpen
  | bracketClose
  | mathShift
  | alignmentTab
  | comment
  | tie
  | lineBreak
  | other
  deriving DecidableEq, Repr

/-- The category of a unit. -/
def Category.ofUnit (u : CodeUnit) : Category :=
  match u with
  | 0x0A => .lineBreak
  | 0x0D => .lineBreak
  | 0x24 => .mathShift
  | 0x25 => .comment
  | 0x26 => .alignmentTab
  | 0x5B => .bracketOpen
  | 0x5C => .escape
  | 0x5D => .bracketClose
  | 0x7B => .groupOpen
  | 0x7D => .groupClose
  | 0x7E => .tie
  | _ => .other

namespace CodeUnit

/-- Units whose escaped form stands for the bare unit. -/
def isEscapable (u : CodeUnit) : Bool :=
  u == 0x23 || u == 0x24 || u == 0x25 || u == 0x26 || u == 0x5F || u == 0x7B || u == 0x7D

/-- Units of an environment's name: letters and asterisks. -/
def isEnvironmentName (u : CodeUnit) : Bool := u.isLetter || u == 0x2A

/-- Units of a plain run of text. -/
def isPlain (u : CodeUnit) : Bool := Category.ofUnit u == .other

end CodeUnit

/-- How the text from a place on is read. -/
inductive Mode
  /-- Markup. -/
  | normal
  /-- The body of a raw environment, up to the end marker of that name. -/
  | rawText (environment : Text)
  /-- A `\verb` argument, up to the next `delimiter`. -/
  | verbatim (delimiter : CodeUnit)
  deriving DecidableEq, Repr

/-- The name a mode is shown by. -/
def Mode.name : Mode → String
  | .normal => "Normal"
  | .rawText _ => "RawText"
  | .verbatim _ => "InlineVerbatim"

/-- A token before it is placed: its kind, its payload, how many units it spans and the mode that
reading goes on in. -/
structure Lexeme where
  kind : TokenKind
  length : Nat
  text : Text
  flags : TokenFlags := {}
  mode : Mode := .normal
  deriving DecidableEq, Repr

/-- Units of the line break at the front of a text: two for a carriage return and line feed, none
when no break stands there. -/
def Text.breakLength : Text → Nat
  | 0x0D :: 0x0A :: _ => 2
  | u :: _ => if u.isLineBreak then 1 else 0
  | [] => 0

/-- Environments whose body is read raw. -/
def rawEnvironments : List Text := ["verbatim", "verbatim*", "lstlisting", "minted", "comment"]

/-- A name in braces at the front of a text, space allowed before: the name and the units up to
and with the closing brace. -/
def environmentName? (t : Text) : Option (Text × Nat) :=
  let space := t.takeWhile CodeUnit.isLineSpace
  match t.dropWhile CodeUnit.isLineSpace with
  | 0x7B :: inner =>
    let name := inner.takeWhile CodeUnit.isEnvironmentName
    if name ≠ [] ∧ (inner.dropWhile CodeUnit.isEnvironmentName).head? = some 0x7D then
      some (name, space.length + 1 + name.length + 1)
    else none
  | _ => none

/-- An end marker of the given name at the front of a text: `\end`, spaces or tabs, and the name in
braces. -/
def startsWithEndMarker (name : Text) (t : Text) : Bool :=
  match t with
  | 0x5C :: 0x65 :: 0x6E :: 0x64 :: rest =>
    ((0x7B :: name) ++ [0x7D]).isPrefixOf (rest.dropWhile CodeUnit.isTabSpace)
  | _ => false

/-- Units before the first end marker of the given name. -/
def endMarkerOffset? (name : Text) : Text → Option Nat
  | [] => none
  | u :: rest =>
    if startsWithEndMarker name (u :: rest) then some 0
    else (endMarkerOffset? name rest).map (· + 1)

namespace Lexeme

/-- A lexeme whose payload is its own spelling, the first `n` units of `t`. -/
def spelled (kind : TokenKind) (t : Text) (n : Nat) (flags : TokenFlags := {}) : Lexeme :=
  { kind, length := n, text := t.take n, flags }

/-- The name at the front of a text: its letters and one asterisk right after them. -/
def commandName (t : Text) : Text :=
  t.takeWhile CodeUnit.isLetter ++
    if (t.dropWhile CodeUnit.isLetter).head? = some 0x2A then [0x2A] else []

/-- The environment marker of a `\begin` or `\end` with `after` behind it, when a name in braces
follows.  The body of a raw environment is read raw. -/
def ofMarker? (name after : Text) : Option Lexeme :=
  if name = "begin" then
    (environmentName? after).map fun (environment, n) =>
      { kind := .envBegin, length := 1 + name.length + n, text := environment,
        mode := if environment ∈ rawEnvironments then .rawText environment else .normal }
  else if name = "end" then
    (environmentName? after).map fun (environment, n) =>
      { kind := .envEnd, length := 1 + name.length + n, text := environment }
  else none

/-- The mode after a command: `\verb` takes the unit behind it for its delimiter, unless that is a
letter or space. -/
def modeAfter (name after : Text) : Mode :=
  match after with
  | d :: _ =>
    if (name = "verb" ∨ name = "verb*") ∧ !(d.isLetter || d.isLineSpace || d.isLineBreak) then
      .verbatim d
    else .normal
  | [] => .normal

/-- The lexeme of a command or environment marker; `t` follows the backslash. -/
def ofCommand (t : Text) : Lexeme :=
  let name := commandName t
  let after := t.drop name.length
  match ofMarker? name after with
  | some marker => marker
  | none =>
    { kind := .command, length := 1 + name.length, text := name, mode := modeAfter name after }

/-- The lexeme that a backslash begins; `t` follows the backslash.  An escape that names nothing
keeps its spelling and never swallows a line break. -/
def ofEscape (t : Text) : Lexeme :=
  match t with
  | [] => spelled .text [0x5C] 1 { malformed := true }
  | c :: _ =>
    if c.isLetter then ofCommand t
    else if c = 0x5C then spelled .lineBreak (0x5C :: t) 2
    else if c = 0x28 ∨ c = 0x29 then spelled .mathInline (0x5C :: t) 2
    else if c = 0x5B ∨ c = 0x5D then spelled .mathDisplay (0x5C :: t) 2
    else if c.isTabSpace then
      { kind := .text, length := 2, text := [0x20], flags := { escaped := true } }
    else if c.isEscapable then
      { kind := .text, length := 2, text := [c], flags := { escaped := true } }
    else spelled .text (0x5C :: t) (if c.isLineBreak then 1 else 2) { malformed := true }

/-- The lexeme of markup that begins with `u` and goes on with `rest`. -/
def ofMarkup (u : CodeUnit) (rest : Text) : Lexeme :=
  match Category.ofUnit u with
  | .escape => ofEscape rest
  | .groupOpen => spelled .groupOpen [u] 1
  | .groupClose => spelled .groupClose [u] 1
  | .bracketOpen => spelled .bracketOpen [u] 1
  | .bracketClose => spelled .bracketClose [u] 1
  | .mathShift =>
    if rest.head? = some 0x24 then spelled .mathDisplay (u :: rest) 2
    else spelled .mathInline [u] 1
  | .alignmentTab => spelled .alignmentTab [u] 1
  | .comment =>
    let body := rest.takeWhile (!·.isLineBreak)
    { kind := .comment, length := 1 + body.length, text := body }
  | .tie => { kind := .text, length := 1, text := [0x20] }
  | .lineBreak => spelled .newLine (u :: rest) (Text.breakLength (u :: rest))
  | .other =>
    let run := u :: rest.takeWhile CodeUnit.isPlain
    { kind := .text, length := run.length, text := run }

/-- The lexeme of a raw environment's body, which runs to the end marker or to the end of the text.
An empty body is no lexeme: the end marker is read at once. -/
def ofRawBody (environment : Text) (u : CodeUnit) (rest : Text) : Lexeme :=
  match endMarkerOffset? environment (u :: rest) with
  | some 0 => ofMarkup u rest
  | some n => spelled .rawText (u :: rest) n
  | none => spelled .rawText (u :: rest) (rest.length + 1) { unterminated := true }

/-- The lexeme of a `\verb` argument; `rest` follows the opening delimiter.  It ends at the next
delimiter, or, unterminated, at the end of the line. -/
def ofVerbatim (delimiter : CodeUnit) (rest : Text) : Lexeme :=
  let body := rest.takeWhile fun c => c != delimiter && !c.isLineBreak
  if (rest.drop body.length).head? = some delimiter then
    { kind := .rawText, length := 1 + body.length + 1, text := body }
  else
    { kind := .rawText, length := 1 + body.length, text := body,
      flags := { unterminated := true } }

/-- The lexeme at the front of the text `u :: rest`. -/
def read (mode : Mode) (u : CodeUnit) (rest : Text) : Lexeme :=
  match mode with
  | .normal => ofMarkup u rest
  | .rawText environment => ofRawBody environment u rest
  | .verbatim delimiter => ofVerbatim delimiter rest

/-! ## Every lexeme spans something -/

@[simp] theorem length_spelled (kind : TokenKind) (t : Text) (n : Nat) (flags : TokenFlags) :
    (spelled kind t n flags).length = n := rfl

theorem length_ofMarker?_pos {name after : Text} {marker : Lexeme}
    (h : ofMarker? name after = some marker) : 0 < marker.length := by
  unfold ofMarker? at h
  split at h
  · obtain ⟨_, _, rfl⟩ := Option.map_eq_some_iff.mp h
    simp only
    omega
  · split at h
    · obtain ⟨_, _, rfl⟩ := Option.map_eq_some_iff.mp h
      simp only
      omega
    · exact absurd h (by simp)

theorem length_ofCommand_pos (t : Text) : 0 < (ofCommand t).length := by
  unfold ofCommand
  cases h : ofMarker? (commandName t) (t.drop (commandName t).length) with
  | some marker => simpa [h] using length_ofMarker?_pos h
  | none => simp only [h]; omega

theorem length_ofEscape_pos (t : Text) : 0 < (ofEscape t).length := by
  unfold ofEscape
  split
  · simp
  · next c rest =>
    by_cases hl : c.isLetter = true
    · simpa [hl] using length_ofCommand_pos (c :: rest)
    · repeat' split
      all_goals simp_all

theorem breakLength_pos {u : CodeUnit} (h : u.isLineBreak = true) (rest : Text) :
    0 < Text.breakLength (u :: rest) := by
  unfold Text.breakLength
  split <;> simp_all

theorem isLineBreak_of_category {u : CodeUnit} (h : Category.ofUnit u = .lineBreak) :
    u.isLineBreak = true := by
  unfold Category.ofUnit at h
  split at h <;> simp_all [CodeUnit.isLineBreak]

theorem length_ofMarkup_pos (u : CodeUnit) (rest : Text) : 0 < (ofMarkup u rest).length := by
  unfold ofMarkup
  cases h : Category.ofUnit u
  case escape => exact length_ofEscape_pos rest
  case lineBreak => exact breakLength_pos (isLineBreak_of_category h) rest
  case mathShift => simp only; split <;> simp
  case comment => exact Nat.lt_add_right _ Nat.one_pos
  all_goals simp

theorem length_ofRawBody_pos (environment : Text) (u : CodeUnit) (rest : Text) :
    0 < (ofRawBody environment u rest).length := by
  unfold ofRawBody
  split
  · exact length_ofMarkup_pos u rest
  · next n hn _ => rw [length_spelled]; exact Nat.pos_of_ne_zero hn
  · simp

theorem length_read_pos (mode : Mode) (u : CodeUnit) (rest : Text) :
    0 < (read mode u rest).length := by
  unfold read
  split
  · exact length_ofMarkup_pos u rest
  · exact length_ofRawBody_pos _ u rest
  · next d =>
    simp only [ofVerbatim]
    split
    · exact Nat.succ_pos _
    · exact Nat.lt_add_right _ Nat.one_pos

end Lexeme

end LatexMarkdown
