import LatexMarkdown.Position
import LatexMarkdown.Token.Lexeme
/-!
  The scanner: lexemes placed on the lines of a text.

  A `Scanner` is a value.  `scan` reads the next token, `rollback` restarts at any offset, and
  `tokens` lists what is left.  The scanner keeps its own line and column as it goes; a dropped
  comment takes its line break with it.
-/
namespace LatexMarkdown

/-- A place in a text, with the offset at which its line begins. -/
structure Place where
  offset : Nat := 0
  line : Nat := 1
  column : Nat := 1
  lineStart : Nat := 0
  deriving DecidableEq, Repr

namespace Place

/-- Past one unit of a line. -/
def next (p : Place) : Place := { p with offset := p.offset + 1, column := p.column + 1 }

/-- Past a line break of `n` units. -/
def nextLine (p : Place) (n : Nat) : Place :=
  { offset := p.offset + n, line := p.line + 1, column := 1, lineStart := p.offset + n }

/-- Over the text that follows until `target` is reached, and what is left then.  A carriage return
and line feed are one line break: a target between the two is passed by one unit. -/
def moveTo (target : Nat) (p : Place) : Text → Place × Text
  | 0x0D :: 0x0A :: rest =>
    if target ≤ p.offset then (p, 0x0D :: 0x0A :: rest)
    else moveTo target (p.nextLine 2) rest
  | u :: rest =>
    if target ≤ p.offset then (p, u :: rest)
    else if u.isLineBreak then moveTo target (p.nextLine 1) rest
    else moveTo target p.next rest
  | [] => (p, [])

theorem length_moveTo_le (target : Nat) (p : Place) (t : Text) :
    (p.moveTo target t).2.length ≤ t.length := by
  fun_induction moveTo target p t <;> simp_all <;> omega

/-- Something is passed whenever the target lies ahead. -/
theorem length_moveTo_lt {target : Nat} {p : Place} (h : p.offset < target) (u : CodeUnit)
    (rest : Text) : (p.moveTo target (u :: rest)).2.length < (u :: rest).length := by
  unfold moveTo
  split
  · next r heq =>
    rw [heq, if_neg (by omega)]
    have := length_moveTo_le target (p.nextLine 2) r
    simp only [List.length_cons]
    omega
  · next v r _ heq =>
    rw [heq, if_neg (by omega)]
    split <;> exact Nat.lt_succ_of_le (length_moveTo_le _ _ _)
  · next heq => exact absurd heq (by simp)

end Place

/-- What is current before a token was read. -/
def Token.unread : Token := ⟨.unknown, {}, 0, 0, []⟩

/-- The state of scanning: the text and the comment policy, the place reached and what is left from
there, the reading mode, what is known of the line so far, and the token read last. -/
structure Scanner where
  source : Text := []
  keepComments : Bool := false
  place : Place := {}
  rest : Text := []
  mode : Mode := .normal
  /-- Something other than space stands on the line before the place. -/
  lineHasContent : Bool := false
  /-- A line break comes right before the place. -/
  afterBreak : Bool := false
  current : Token := .unread
  /-- The offset that scanning was last restarted at. -/
  restart : Number := 0
  deriving DecidableEq, Repr

/-- An offset outside the text was asked for. -/
structure RollbackError where
  offset : Number
  deriving DecidableEq, Repr

/-- The wording of the error. -/
def RollbackError.message (e : RollbackError) : Text :=
  "Invalid rollback position: " ++ e.offset.text

namespace Scanner

/-- Nothing read yet of a text. -/
def ofText (source : Text) (keepComments : Bool := false) : Scanner :=
  { source, keepComments, rest := source }

/-- Places a lexeme read at the front of `rest` and makes it the current token. -/
def emit (s : Scanner) (lexeme : Lexeme) : Scanner :=
  let (place, rest) := s.place.moveTo (s.place.offset + lexeme.length) s.rest
  let isBreak := lexeme.kind == .newLine
  -- The flags of the token look back at the line so far; the new state includes the token.
  { s with
    place
    rest
    mode := lexeme.mode
    lineHasContent := !isBreak &&
      (s.lineHasContent || !(lexeme.kind == .text && lexeme.text.isBlank))
    afterBreak := isBreak
    current :=
      { kind := lexeme.kind
        flags := { lexeme.flags with
          atLineStart := !s.lineHasContent
          afterBreak := s.afterBreak
          blankLine := isBreak && !s.lineHasContent }
        start := s.place.offset
        stop := place.offset
        text := lexeme.text } }

/-- Drops a comment of `n` units together with the line break behind it. -/
def skipComment (s : Scanner) (n : Nat) : Scanner :=
  let breakLength := Text.breakLength (s.rest.drop n)
  let (place, rest) := s.place.moveTo (s.place.offset + n + breakLength) s.rest
  -- At the end of the text there is no break to drop, and the line stays what it was.
  { s with
    place
    rest
    mode := .normal
    lineHasContent := breakLength == 0 && s.lineHasContent
    afterBreak := breakLength != 0 || s.afterBreak }

theorem length_rest_skipComment_lt {s : Scanner} (n : Nat) (hn : 0 < n) {u : CodeUnit}
    {rest : Text} (h : s.rest = u :: rest) :
    (s.skipComment n).rest.length < s.rest.length := by
  simp only [skipComment, h]
  exact Place.length_moveTo_lt (by omega) u rest

theorem length_rest_emit_lt {s : Scanner} {lexeme : Lexeme} (hn : 0 < lexeme.length) {u : CodeUnit}
    {rest : Text} (h : s.rest = u :: rest) : (s.emit lexeme).rest.length < s.rest.length := by
  simp only [emit, h]
  exact Place.length_moveTo_lt (by omega) u rest

/-- Reads the next token and makes it current.  At the end of the text that is the end-of-file
token, however often it is asked for. -/
def scan (s : Scanner) : Scanner :=
  match _ : s.rest with
  | [] => s.emit { kind := .endOfFile, length := 0, text := [], mode := s.mode }
  | u :: rest =>
    let lexeme := Lexeme.read s.mode u rest
    if lexeme.kind = .comment ∧ s.keepComments = false then
      scan (s.skipComment lexeme.length)
    else s.emit lexeme
  termination_by s.rest.length
  decreasing_by
    exact length_rest_skipComment_lt _ (Lexeme.length_read_pos _ _ _) ‹_›

/-- A scan that finds a token takes something off the text. -/
theorem length_rest_scan_lt (s : Scanner) (h : s.scan.current.kind ≠ .endOfFile) :
    s.scan.rest.length < s.rest.length := by
  fun_induction scan s with
  | case1 s hs => exact absurd rfl h
  | case2 s u rest hs lexeme hc ih =>
    have := length_rest_skipComment_lt lexeme.length (Lexeme.length_read_pos _ _ _) hs
    have := ih h
    omega
  | case3 s u rest hs lexeme hc => exact length_rest_emit_lt (Lexeme.length_read_pos _ _ _) hs

/-- The tokens from here on, the last and only end-of-file token included. -/
def tokens (s : Scanner) : List Token :=
  let next := s.scan
  if _ : next.current.kind = .endOfFile then [next.current]
  else next.current :: tokens next
  termination_by s.rest.length
  decreasing_by exact length_rest_scan_lt s ‹_›

/-- The token list ends in an end-of-file token. -/
theorem exists_getLast?_tokens (s : Scanner) :
    ∃ t, s.tokens.getLast? = some t ∧ t.kind = .endOfFile := by
  fun_induction tokens s with
  | case1 s next h => exact ⟨_, rfl, h⟩
  | case2 s next h ih =>
    obtain ⟨t, ht, hk⟩ := ih
    exact ⟨t, by simp [List.getLast?_cons, ht], hk⟩

/-- Restarts at any offset of the text, in normal mode and with no current token. -/
def rollback (s : Scanner) (offset : Int) : Except RollbackError Scanner :=
  if offset < 0 ∨ s.source.length < offset then .error ⟨.ofInt offset⟩
  else
    let (place, rest) := Place.moveTo offset.toNat {} s.source
    .ok { s with
      place
      rest
      mode := .normal
      lineHasContent := !(s.source.slice place.lineStart place.offset).isBlank
      afterBreak := 0 < offset && place.lineStart == place.offset
      current := .unread
      restart := .ofInt offset }

/-- Restarts at an offset that may lie between two units; scanning goes on from the second.  What is
no number is not refused: scanning goes on from the front then. -/
def rollbackBetween (s : Scanner) (offset : Number) : Except RollbackError Scanner :=
  let next? : Option Int :=
    if offset = .nan then some 0 else if 0 ≤ offset then offset.ceil? else none
  match next?.map s.rollback with
  | some (.ok s) => .ok { s with restart := offset }
  | _ => .error ⟨offset⟩

/-- The current token.  Before one was read it stands where scanning was last restarted, and that
is not the place reached when it was inside a line break or between two units. -/
def currentToken (s : Scanner) : Token Number :=
  let t := s.current.mapOffsets Number.ofNat
  if t.kind = .unknown then { t with start := s.restart, stop := s.restart } else t

end Scanner

/-- The tokens of a text. -/
def Text.tokens (source : Text) (keepComments : Bool := false) : List Token :=
  (Scanner.ofText source keepComments).tokens

end LatexMarkdown
