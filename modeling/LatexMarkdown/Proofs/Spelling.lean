import LatexMarkdown.Proofs.EndMarkers
/-!
  How the tokens of a text are spelled.

  `Token.Spells` says, for each kind of token, which units it may stand for and what may come
  behind them, in terms of the text alone; raw text is spelled by the token in front of it as
  well, the begin marker or the `\verb` that it belongs to.  Main statement:
  `Text.wellFormed_of_tokens`, every token is spelled so, whatever the text is.

  A lexeme is looked at where it is read (`Lexeme.hasSpelling_ofMarkup`, one lemma for each thing
  that begins with a backslash), and the mode of reading is all that has to be known of the
  tokens before it (`Mode.Follows`).
-/
namespace LatexMarkdown

namespace CodeUnit

/-- The units whose escape stands for the bare unit. -/
def escapable : List CodeUnit := [0x23, 0x24, 0x25, 0x26, 0x5F, 0x7B, 0x7D]

/-- The units that make an escape: those, space and tab, a second backslash, and the units of the
mathematics delimiters. -/
def escapes : List CodeUnit := 0x20 :: 0x09 :: 0x5C :: 0x28 :: 0x29 :: 0x5B :: 0x5D :: escapable

end CodeUnit

/-- The spellings of a kind of token that is spelled as it is. -/
def TokenKind.delimiters : TokenKind → List Text
  | .mathInline => [[0x24], [0x5C, 0x28], [0x5C, 0x29]]
  | .mathDisplay => [[0x24, 0x24], [0x5C, 0x5B], [0x5C, 0x5D]]
  | .groupOpen => [[0x7B]]
  | .groupClose => [[0x7D]]
  | .bracketOpen => [[0x5B]]
  | .bracketClose => [[0x5D]]
  | .alignmentTab => [[0x26]]
  | .lineBreak => [[0x5C, 0x5C]]
  | _ => []

/-- A name in braces stands at the front of a text, space allowed before. -/
def Text.OpensName (t : Text) : Prop :=
  ∃ space name rest, t = space ++ 0x7B :: (name ++ 0x7D :: rest) ∧ name ≠ [] ∧
    (∀ u ∈ space, CodeUnit.isLineSpace u = true) ∧ ∀ u ∈ name, CodeUnit.isEnvironmentName u = true

/-- What stands behind a longest run of units of a class is not of the class. -/
theorem Text.stops_dropWhile {p : CodeUnit → Bool} {t : Text} :
    ∀ u ∈ (t.dropWhile p).head?, p u = false := by
  intro u hu
  have hstop := List.head?_dropWhile_not p t
  rwa [Option.mem_def.mp hu] at hstop

namespace Token

/-! ## Spellings -/

section Spellings

variable (t : Token) (span after : Text)

/-- Text that is no escape: a tie, which stands for a space, or a longest run of units that mean
nothing to the scanner. -/
def SpellsText : Prop :=
  (span = [0x7E] ∧ t.text = [0x20]) ∨
    (t.text = span ∧ span ≠ [] ∧ (∀ u ∈ span, u ∉ CodeUnit.special) ∧
      ∀ u ∈ after.head?, u ∈ CodeUnit.special)

/-- An escape for a bare unit or for a space. -/
def SpellsEscape : Prop :=
  ∃ c, span = [0x5C, c] ∧
    ((c ∈ CodeUnit.escapable ∧ t.text = [c]) ∨ ((c = 0x20 ∨ c = 0x09) ∧ t.text = [0x20]))

/-- An escape that names nothing: a backslash at the end of its line, or before a unit that makes no
escape. -/
def SpellsMalformed : Prop :=
  t.text = span ∧
    ((span = [0x5C] ∧ ∀ u ∈ after.head?, u.isLineBreak = true) ∨
      ∃ c, span = [0x5C, c] ∧ c.isLetter = false ∧ c.isLineBreak = false ∧ c ∉ CodeUnit.escapes)

/-- A command: as many letters as there are, and an asterisk if there is one.  The commands of
markers are commands only where no name follows. -/
structure SpellsCommand : Prop where
  span_eq : span = 0x5C :: t.text
  name : ∃ letters, letters ≠ [] ∧ (∀ u ∈ letters, CodeUnit.isLetter u = true) ∧
    (t.text = letters ++ [0x2A] ∨
      (t.text = letters ∧ ∀ u ∈ after.head?, u.isLetter = false ∧ u ≠ 0x2A))
  bare : t.text = Text.ofString "begin" ∨ t.text = Text.ofString "end" → ¬ after.OpensName

/-- A marker of an environment: the command, space of one line, and the name in braces. -/
structure SpellsMarker (command : Text) : Prop where
  span_eq : ∃ space, span = 0x5C :: (command ++ (space ++ 0x7B :: (t.text ++ [0x7D]))) ∧
    ∀ u ∈ space, CodeUnit.isLineSpace u = true
  name_ne_nil : t.text ≠ []
  name : ∀ u ∈ t.text, CodeUnit.isEnvironmentName u = true

/-- A comment goes to the end of its line. -/
structure SpellsComment : Prop where
  span_eq : span = 0x25 :: t.text
  body : ∀ u ∈ t.text, CodeUnit.isLineBreak u = false
  stops : ∀ u ∈ after.head?, u.isLineBreak = true

/-- The body of a raw environment: no end marker of it begins in the body, and one stands right
behind, unless the body goes to the end of the text and is marked as unterminated. -/
structure SpellsBody (name : Text) : Prop where
  text_eq : t.text = span
  ne_nil : span ≠ []
  before : ∀ n < span.length, ¬ Text.BeginsEnd ((span ++ after).drop n) name
  stops : if t.flags.unterminated then after = [] else after.BeginsEnd name

/-- The argument of a `\verb`: a delimiter, units up to the next one, and the delimiter again,
unless the line ends before it and the argument is marked as unterminated. -/
structure SpellsVerbatim : Prop where
  span_eq : ∃ d : CodeUnit, (d.isLetter = false ∧ d.isLineSpace = false ∧ d.isLineBreak = false) ∧
    d ∉ t.text ∧
    if t.flags.unterminated then span = d :: t.text ∧ ∀ u ∈ after.head?, u.isLineBreak = true
    else span = d :: (t.text ++ [d])
  body : ∀ u ∈ t.text, CodeUnit.isLineBreak u = false

/-- What a token may stand for, by its kind: `span` are its units and `after` those behind it, and
`previous` is the token in front of it. -/
def Spells (previous : Option Token) : Prop :=
  match t.kind with
  | .unknown => False
  | .endOfFile => t.text = [] ∧ span = [] ∧ after = []
  | .text =>
    match t.flags.escaped, t.flags.malformed with
    | false, false => t.SpellsText span after
    | true, false => t.SpellsEscape span
    | false, true => t.SpellsMalformed span after
    | true, true => False
  | .newLine => t.text = span ∧ span.IsLineBreak
  | .command => t.SpellsCommand span after
  | .envBegin => t.SpellsMarker span (Text.ofString "begin")
  | .envEnd => t.SpellsMarker span (Text.ofString "end")
  | .comment => t.SpellsComment span after
  | .rawText =>
    ∃ p ∈ previous, p.stop = t.start ∧
      ((p.kind = .envBegin ∧ p.text ∈ rawEnvironments ∧ t.SpellsBody span after p.text) ∨
        (p.kind = .command ∧ (p.text = Text.ofString "verb" ∨ p.text = Text.ofString "verb*") ∧
          t.SpellsVerbatim span after))
  | .mathInline | .mathDisplay | .groupOpen | .groupClose | .bracketOpen | .bracketClose
  | .alignmentTab | .lineBreak =>
    t.text = span ∧ span ∈ t.kind.delimiters ∧ (span = [0x24] → after.head? ≠ some 0x24)

end Spellings

/-- A token of a text is spelled as one of its kind, with the marks that belong to the kind, and its
ends split no line break. -/
structure WellFormed (t : Token) (source : Text) (previous : Option Token) : Prop where
  start_le : t.start ≤ t.stop
  stop_le : t.stop ≤ source.length
  not_cuts_start : ¬ source.Cuts t.start
  not_cuts_stop : ¬ source.Cuts t.stop
  spells : t.Spells (source.slice t.start t.stop) (source.drop t.stop) previous
  kind_of_escaped : t.flags.escaped = true ∨ t.flags.malformed = true → t.kind = .text
  kind_of_unterminated : t.flags.unterminated = true → t.kind = .rawText

end Token

/-- The token that a mode of reading belongs to stands right in front of the place: the begin marker
of a raw environment, or a `\verb`. -/
def Mode.Follows (mode : Mode) (previous : Option Token) (offset : Nat) : Prop :=
  match mode with
  | .normal => True
  | .rawText name =>
    ∃ p ∈ previous, p.stop = offset ∧ p.kind = .envBegin ∧ p.text = name ∧ name ∈ rawEnvironments
  | .verbatim d =>
    (∃ p ∈ previous, p.stop = offset ∧ p.kind = .command ∧
      (p.text = Text.ofString "verb" ∨ p.text = Text.ofString "verb*")) ∧
      d.isLetter = false ∧ d.isLineSpace = false ∧ d.isLineBreak = false

/-! ## Markup -/

/-- The unit of a category that has one. -/
def Category.unit? : Category → Option CodeUnit
  | .escape => some 0x5C
  | .groupOpen => some 0x7B
  | .groupClose => some 0x7D
  | .bracketOpen => some 0x5B
  | .bracketClose => some 0x5D
  | .mathShift => some 0x24
  | .alignmentTab => some 0x26
  | .comment => some 0x25
  | .tie => some 0x7E
  | .lineBreak | .other => none

namespace Lexeme

theorem eq_of_category {u v : CodeUnit} {category : Category} (h : Category.ofUnit u = category)
    (hunit : category.unit? = some v) : u = v := by
  unfold Category.ofUnit at h
  split at h <;> subst h <;> simp_all [Category.unit?]

/-- A lexeme spans the front of a text, and a token made of it is spelled as one of its kind. -/
def HasSpelling (x : Lexeme) (t : Text) : Prop :=
  ∃ span after, t = span ++ after ∧ x.length = span.length ∧
    ∀ m offset previous, (x.toToken m offset).Spells span after previous

theorem hasSpelling_delimiter {kind : TokenKind} {span : Text} (after : Text)
    (hspan : span ∈ kind.delimiters) (hdollar : span = [0x24] → after.head? ≠ some 0x24) :
    HasSpelling { kind, length := span.length, text := span } (span ++ after) := by
  refine ⟨span, after, rfl, rfl, fun m offset previous => ?_⟩
  cases kind
  case mathInline | mathDisplay | groupOpen | groupClose | bracketOpen | bracketClose
    | alignmentTab | lineBreak => exact ⟨rfl, hspan, hdollar⟩
  -- The other kinds have no such spelling.
  all_goals cases hspan

/-- The letters at the front of a text and the asterisk behind them, and what follows. -/
theorem exists_of_commandName {c : CodeUnit} (hc : c.isLetter = true) (rest : Text) :
    ∃ letters after, c :: rest = commandName (c :: rest) ++ after ∧ letters ≠ [] ∧
      (∀ u ∈ letters, CodeUnit.isLetter u = true) ∧
      (commandName (c :: rest) = letters ++ [0x2A] ∨
        (commandName (c :: rest) = letters ∧
          ∀ u ∈ after.head?, u.isLetter = false ∧ u ≠ 0x2A)) := by
  generalize ht : c :: rest = t
  have hsplit : t.takeWhile CodeUnit.isLetter ++ t.dropWhile CodeUnit.isLetter = t :=
    List.takeWhile_append_dropWhile
  have hne : t.takeWhile CodeUnit.isLetter ≠ [] := by simp [← ht, hc]
  have hletters : ∀ u ∈ t.takeWhile CodeUnit.isLetter, CodeUnit.isLetter u = true :=
    fun u => List.mem_takeWhile_imp
  by_cases hstar : (t.dropWhile CodeUnit.isLetter).head? = some 0x2A
  · obtain ⟨after, hafter⟩ := List.head?_eq_some_iff.mp hstar
    have hname : commandName t = t.takeWhile CodeUnit.isLetter ++ [0x2A] := by
      rw [commandName, if_pos hstar]
    refine ⟨_, after, ?_, hne, hletters, .inl hname⟩
    rw [hname, List.append_assoc, List.singleton_append, ← hafter, hsplit]
  · have hname : commandName t = t.takeWhile CodeUnit.isLetter := by
      rw [commandName, if_neg hstar, List.append_nil]
    refine ⟨_, t.dropWhile CodeUnit.isLetter, ?_, hne, hletters, .inr ⟨hname, fun u hu => ⟨?_, ?_⟩⟩⟩
    · rw [hname, hsplit]
    · exact Text.stops_dropWhile u hu
    · rintro rfl
      exact hstar hu

/-- A marker of an environment in front of which the command stands. -/
theorem hasSpelling_marker {kind : TokenKind} {command : Text} {mode : Mode}
    (hspells : ∀ (t : Token) span after previous, t.kind = kind →
      t.SpellsMarker span command → t.Spells span after previous)
    {after name : Text} {n : Nat} (h : environmentName? after = some (name, n)) :
    HasSpelling { kind, length := 1 + command.length + n, text := name, mode }
      (0x5C :: (command ++ after)) := by
  obtain ⟨space, rest, rfl, rfl, hne, hspace, hname⟩ := environmentName?_eq_some_iff.mp h
  refine ⟨0x5C :: (command ++ (space ++ 0x7B :: (name ++ [0x7D]))), rest, by simp, ?_,
    fun m offset previous => hspells _ _ _ _ rfl ⟨⟨space, rfl, hspace⟩, hne, hname⟩⟩
  simp only [List.length_cons, List.length_append, List.length_nil]
  omega

theorem hasSpelling_ofCommand {c : CodeUnit} (hc : c.isLetter = true) (rest : Text) :
    (ofCommand (c :: rest)).HasSpelling (0x5C :: c :: rest) := by
  obtain ⟨letters, after, hsplit, hne, hletters, hname⟩ := exists_of_commandName hc rest
  have hdrop : (commandName (c :: rest) ++ after).drop (commandName (c :: rest)).length = after :=
    List.drop_append_length
  rw [← hsplit] at hdrop
  simp only [ofCommand, hdrop]
  generalize commandName (c :: rest) = command at hsplit hname
  rw [hsplit]
  cases hm : ofMarker? command after with
  | some marker =>
    -- The command is that of a marker, and a name follows.
    unfold ofMarker? at hm
    split at hm
    · next hbegin =>
      obtain ⟨⟨name, n⟩, henv, rfl⟩ := Option.map_eq_some_iff.mp hm
      subst hbegin
      exact hasSpelling_marker (fun t span after previous hk h => by rw [Token.Spells, hk]; exact h)
        henv
    · split at hm
      · next hend =>
        obtain ⟨⟨name, n⟩, henv, rfl⟩ := Option.map_eq_some_iff.mp hm
        subst hend
        exact hasSpelling_marker
          (fun t span after previous hk h => by rw [Token.Spells, hk]; exact h) henv
      · cases hm
  | none =>
    refine ⟨0x5C :: command, after, rfl, by rw [List.length_cons, Nat.add_comm],
      fun m offset previous => ⟨rfl, ⟨letters, hne, hletters, hname⟩, ?_⟩⟩
    rintro hmarker ⟨space, name, rest', rfl, hne', hspace, hunits⟩
    have henv := environmentName?_eq_some_iff.mpr ⟨space, rest', rfl, rfl, hne', hspace, hunits⟩
    have htext : command = Text.ofString "begin" ∨ command = Text.ofString "end" := hmarker
    unfold ofMarker? at hm
    rw [henv] at hm
    rcases htext with rfl | rfl
    · simp at hm
    · split at hm <;> simp at hm

theorem of_ofMarker? {name after : Text} {x : Lexeme} (h : ofMarker? name after = some x) :
    (x.kind = .envBegin ∨ x.kind = .envEnd) ∧ x.flags = {} := by
  unfold ofMarker? at h
  split at h
  · obtain ⟨_, _, rfl⟩ := Option.map_eq_some_iff.mp h
    exact ⟨.inl rfl, rfl⟩
  · split at h
    · obtain ⟨_, _, rfl⟩ := Option.map_eq_some_iff.mp h
      exact ⟨.inr rfl, rfl⟩
    · cases h

theorem modeAfter_eq_verbatim {name after : Text} {d : CodeUnit}
    (h : modeAfter name after = .verbatim d) :
    (name = Text.ofString "verb" ∨ name = Text.ofString "verb*") ∧
      d.isLetter = false ∧ d.isLineSpace = false ∧ d.isLineBreak = false := by
  unfold modeAfter at h
  split at h
  · split at h
    · next hverb =>
      cases h
      simpa [and_assoc] using hverb
    · cases h
  · cases h

/-- What a backslash begins is a command or an escape, or an escape that names nothing. -/
theorem hasSpelling_ofEscape (t : Text) : (ofEscape t).HasSpelling (0x5C :: t) := by
  cases t with
  | nil =>
    exact ⟨[0x5C], [], rfl, rfl, fun m offset previous => ⟨rfl, .inl ⟨rfl, by simp⟩⟩⟩
  | cons c rest =>
    have hpair : ∀ kind : TokenKind, [0x5C, c] ∈ kind.delimiters →
        (spelled kind (0x5C :: c :: rest) 2).HasSpelling (0x5C :: c :: rest) :=
      fun _ hspan => hasSpelling_delimiter rest hspan (by simp)
    simp only [ofEscape]
    split
    · next hletter => exact hasSpelling_ofCommand hletter rest
    split
    · next hc => exact hpair _ (by rw [hc]; decide)
    split
    · next hc => exact hpair _ (by rcases hc with rfl | rfl <;> decide)
    split
    · next hc => exact hpair _ (by rcases hc with rfl | rfl <;> decide)
    split
    · next hc =>
      have htab : c = 0x20 ∨ c = 0x09 := by simpa [CodeUnit.isTabSpace] using hc
      exact ⟨[0x5C, c], rest, rfl, rfl, fun m offset previous => ⟨c, rfl, .inr ⟨htab, rfl⟩⟩⟩
    split
    · next hc =>
      have hmem : c ∈ CodeUnit.escapable := by
        simpa [CodeUnit.isEscapable, CodeUnit.escapable, or_assoc] using hc
      exact ⟨[0x5C, c], rest, rfl, rfl, fun m offset previous => ⟨c, rfl, .inl ⟨hmem, rfl⟩⟩⟩
    · next hletter hslash hround hsquare htab hescapable =>
      by_cases hbreak : c.isLineBreak = true
      · rw [if_pos hbreak]
        refine ⟨[0x5C], c :: rest, rfl, rfl, fun m offset previous => ⟨rfl, .inl ⟨rfl, ?_⟩⟩⟩
        rintro v ⟨⟩
        exact hbreak
      · rw [if_neg hbreak]
        refine ⟨[0x5C, c], rest, rfl, rfl, fun m offset previous =>
          ⟨rfl, .inr ⟨c, rfl, by simpa using hletter, by simpa using hbreak, ?_⟩⟩⟩
        simp only [CodeUnit.isTabSpace, CodeUnit.isEscapable, Bool.or_eq_true, beq_iff_eq]
          at htab hescapable
        simp only [CodeUnit.escapes, CodeUnit.escapable, List.mem_cons, List.not_mem_nil, or_false]
        grind

theorem isPlain_iff {u : CodeUnit} : u.isPlain = true ↔ u ∉ CodeUnit.special := by
  simp only [CodeUnit.isPlain, beq_iff_eq, CodeUnit.special, List.mem_cons, List.not_mem_nil,
    or_false]
  unfold Category.ofUnit
  split <;> simp_all

/-- A lexeme of markup is spelled as one of its kind. -/
theorem hasSpelling_ofMarkup (u : CodeUnit) (rest : Text) :
    (ofMarkup u rest).HasSpelling (u :: rest) := by
  have hsingle : ∀ kind : TokenKind, [u] ∈ kind.delimiters → u ≠ 0x24 →
      (spelled kind [u] 1).HasSpelling (u :: rest) := fun _ hspan hu =>
    hasSpelling_delimiter rest hspan fun h => absurd (List.cons.inj h).1 hu
  unfold ofMarkup
  cases hc : Category.ofUnit u with
  | escape => exact eq_of_category hc rfl ▸ hasSpelling_ofEscape rest
  | groupOpen | groupClose | bracketOpen | bracketClose | alignmentTab =>
    obtain rfl := eq_of_category hc rfl
    exact hsingle _ (by decide) (by decide)
  | mathShift =>
    obtain rfl := eq_of_category hc rfl
    simp only
    split
    · next hhead =>
      obtain ⟨after, rfl⟩ := List.head?_eq_some_iff.mp hhead
      have hspan : [0x24, 0x24] ∈ TokenKind.mathDisplay.delimiters := by decide
      exact hasSpelling_delimiter after hspan (by simp)
    · next hhead =>
      have hspan : [0x24] ∈ TokenKind.mathInline.delimiters := by decide
      exact hasSpelling_delimiter rest hspan fun _ => hhead
  | tie =>
    obtain rfl := eq_of_category hc rfl
    exact ⟨[0x7E], rest, rfl, rfl, fun m offset previous => .inl ⟨rfl, rfl⟩⟩
  | comment =>
    obtain rfl := eq_of_category hc rfl
    refine ⟨0x25 :: rest.takeWhile (!·.isLineBreak), rest.dropWhile (!·.isLineBreak), ?_, ?_,
      fun m offset previous => ⟨rfl, fun v hv => ?_, fun v hv => ?_⟩⟩
    · rw [List.cons_append, List.takeWhile_append_dropWhile]
    · rw [List.length_cons, Nat.add_comm]
    · simpa using List.mem_takeWhile_imp hv
    · simpa using Text.stops_dropWhile v hv
  | lineBreak =>
    have hbreak := Text.isLineBreak_take_breakLength (isLineBreak_of_category hc) rest
    refine ⟨_, _, (List.take_append_drop (Text.breakLength (u :: rest)) (u :: rest)).symm, ?_,
      fun m offset previous => ⟨rfl, hbreak⟩⟩
    rw [List.length_take, Nat.min_eq_left (Text.breakLength_le _)]
    rfl
  | other =>
    have hplain : u.isPlain = true := by rw [CodeUnit.isPlain, hc]; rfl
    refine ⟨u :: rest.takeWhile CodeUnit.isPlain, rest.dropWhile CodeUnit.isPlain, ?_, rfl,
      fun m offset previous => .inr ⟨rfl, List.cons_ne_nil _ _, fun v hv => ?_, fun v hv => ?_⟩⟩
    · rw [List.cons_append, List.takeWhile_append_dropWhile]
    · rcases List.mem_cons.mp hv with rfl | hv
      · exact isPlain_iff.mp hplain
      · exact isPlain_iff.mp (List.mem_takeWhile_imp hv)
    · have hstop := Text.stops_dropWhile v hv
      by_contra hspecial
      rw [isPlain_iff.mpr hspecial] at hstop
      cases hstop

/-- Escapes are marked on text alone, and a missing end on raw text alone. -/
structure MarksKind (x : Lexeme) : Prop where
  kind_of_escaped : x.flags.escaped = true ∨ x.flags.malformed = true → x.kind = .text
  kind_of_unterminated : x.flags.unterminated = true → x.kind = .rawText

theorem marksKind_of_flags {x : Lexeme} (h : x.flags = {}) : x.MarksKind :=
  ⟨fun hmark => by simp [h] at hmark, fun hmark => by simp [h] at hmark⟩

theorem marksKind_ofCommand (t : Text) : (ofCommand t).MarksKind := by
  apply marksKind_of_flags
  simp only [ofCommand]
  split
  · next marker hm => exact (of_ofMarker? hm).2
  · rfl

theorem marksKind_ofEscape (t : Text) : (ofEscape t).MarksKind := by
  have htext : ∀ x : Lexeme, x.kind = .text → x.flags.unterminated = false → x.MarksKind :=
    fun x hk hx => ⟨fun _ => hk, fun h => by simp [hx] at h⟩
  unfold ofEscape
  split
  · exact htext _ rfl rfl
  · split
    · exact marksKind_ofCommand _
    · repeat' split
      all_goals first | exact htext _ rfl rfl | exact marksKind_of_flags rfl

theorem marksKind_ofMarkup (u : CodeUnit) (rest : Text) : (ofMarkup u rest).MarksKind := by
  unfold ofMarkup
  cases Category.ofUnit u
  case escape => exact marksKind_ofEscape rest
  case mathShift => simp only; split <;> exact marksKind_of_flags rfl
  all_goals exact marksKind_of_flags rfl

theorem marksKind_read (mode : Mode) (u : CodeUnit) (rest : Text) :
    (read mode u rest).MarksKind := by
  obtain heq | ⟨hraw, -⟩ := read_cases mode u rest
  · rw [heq]
    exact marksKind_ofMarkup u rest
  · refine ⟨fun h => ?_, fun _ => hraw⟩
    -- No raw text is marked as an escape.
    have hflags : (read mode u rest).flags.escaped = false ∧
        (read mode u rest).flags.malformed = false := by
      cases mode with
      | normal => exact absurd hraw (kind_ofMarkup_ne_rawText u rest)
      | rawText environment =>
        simp only [read, ofRawBody] at hraw ⊢
        split at hraw
        · exact absurd hraw (kind_ofMarkup_ne_rawText u rest)
        · exact ⟨rfl, rfl⟩
        · exact ⟨rfl, rfl⟩
      | verbatim d =>
        simp only [read, ofVerbatim]
        split <;> exact ⟨rfl, rfl⟩
    simp [hflags] at h

/-! ## Raw text -/

/-- The command and the delimiter in front of a verbatim argument. -/
theorem verb_of_mode {mode : Mode} {u d : CodeUnit} {rest : Text}
    (h : (read mode u rest).mode = .verbatim d) :
    (read mode u rest).kind = .command ∧
      ((read mode u rest).text = Text.ofString "verb" ∨
        (read mode u rest).text = Text.ofString "verb*") ∧
      d.isLetter = false ∧ d.isLineSpace = false ∧ d.isLineBreak = false := by
  obtain heq | ⟨-, hmode⟩ := read_cases mode u rest
  · rw [heq] at h ⊢
    obtain ⟨t, heq⟩ | ⟨hmode, -⟩ := ofMarkup_cases u rest
    · rw [heq] at h ⊢
      obtain ⟨-, hmode⟩ | ⟨-, hmode⟩ | ⟨hk, -⟩ := ofCommand_cases t
      · rw [hmode] at h
        split at h <;> cases h
      · rw [hmode] at h
        cases h
      · refine ⟨hk, ?_⟩
        generalize hx : ofCommand t = x at h hk ⊢
        simp only [ofCommand] at hx
        split at hx
        · -- A marker is no command.
          next marker hm =>
          subst hx
          obtain ⟨hk' | hk', -⟩ := of_ofMarker? hm <;> rw [hk'] at hk <;> cases hk
        · subst hx
          exact modeAfter_eq_verbatim h
    · rw [hmode] at h
      cases h
  · rw [hmode] at h
    cases h

/-- The body of a raw environment is spelled as one, or it is empty and markup is read. -/
theorem spellsToken_ofRawBody {name : Text} {u : CodeUnit} {rest : Text} {previous : Option Token}
    {offset : Nat} (h : (Mode.rawText name).Follows previous offset) :
    ∃ span after, u :: rest = span ++ after ∧ (ofRawBody name u rest).length = span.length ∧
      ∀ m, ((ofRawBody name u rest).toToken m offset).Spells span after previous := by
  obtain ⟨p, hp, hstop, hk, rfl, hraw⟩ := h
  unfold ofRawBody
  cases hn : endMarkerOffset? p.text (u :: rest) with
  | none =>
    have hnot := endMarkerOffset?_eq_none_iff.mp hn
    refine ⟨u :: rest, [], (List.append_nil _).symm, rfl, fun m =>
      ⟨p, hp, hstop, .inl ⟨hk, hraw, ?_, List.cons_ne_nil _ _, fun n _ => ?_, rfl⟩⟩⟩
    · exact List.take_of_length_le (Nat.le_refl _)
    · rw [List.append_nil]
      exact hnot n
  | some n =>
    cases n with
    | zero =>
      obtain ⟨span, after, hsplit, hlength, hspells⟩ := hasSpelling_ofMarkup u rest
      exact ⟨span, after, hsplit, hlength, fun m => hspells m offset previous⟩
    | succ n =>
      obtain ⟨here, hbefore⟩ := endMarkerOffset?_eq_some_iff.mp hn
      have hfits := fits_ofRawBody p.text u rest
      have hle : n + 1 ≤ (u :: rest).length := by
        rw [ofRawBody, hn] at hfits
        exact hfits.length_le
      have hlength : ((u :: rest).take (n + 1)).length = n + 1 := by
        rw [List.length_take, Nat.min_eq_left hle]
      refine ⟨_, _, (List.take_append_drop (n + 1) (u :: rest)).symm, hlength.symm, fun m =>
        ⟨p, hp, hstop, .inl ⟨hk, hraw, rfl, List.cons_ne_nil _ _, fun i hi => ?_, here⟩⟩⟩
      rw [List.take_append_drop]
      exact hbefore i (hlength ▸ hi)

/-- The argument of a `\verb` is spelled as one. -/
theorem spellsToken_ofVerbatim {d : CodeUnit} {previous : Option Token} {offset : Nat}
    (h : (Mode.verbatim d).Follows previous offset) (rest : Text) :
    ∃ span after, d :: rest = span ++ after ∧ (ofVerbatim d rest).length = span.length ∧
      ∀ m, ((ofVerbatim d rest).toToken m offset).Spells span after previous := by
  obtain ⟨⟨p, hp, hstop, hk, hverb⟩, hd⟩ := h
  simp only [ofVerbatim]
  generalize hq : (fun c : CodeUnit => c != d && !c.isLineBreak) = q
  have hbody : ∀ v ∈ rest.takeWhile q, v ≠ d ∧ CodeUnit.isLineBreak v = false := by
    intro v hv
    have := List.mem_takeWhile_imp hv
    rw [← hq] at this
    simpa using this
  have hdelimiter : d ∉ rest.takeWhile q := fun hmem => (hbody d hmem).1 rfl
  have hsplit : rest = rest.takeWhile q ++ rest.dropWhile q := List.takeWhile_append_dropWhile.symm
  have hbreak : ∀ v ∈ rest.takeWhile q, CodeUnit.isLineBreak v = false := fun v hv => (hbody v hv).2
  rw [Text.drop_length_takeWhile]
  split
  · next hhead =>
    obtain ⟨after, hafter⟩ := List.head?_eq_some_iff.mp hhead
    refine ⟨d :: (rest.takeWhile q ++ [d]), after, ?_, ?_, fun m =>
      ⟨p, hp, hstop, .inr ⟨hk, hverb, ⟨d, hd, hdelimiter, rfl⟩, hbreak⟩⟩⟩
    · rw [hafter] at hsplit
      simp [← hsplit]
    · simp only [List.length_cons, List.length_append, List.length_nil]
      omega
  · next hhead =>
    -- What stops the argument is no delimiter, so it ends the line.
    have hstops : ∀ v ∈ (rest.dropWhile q).head?, v.isLineBreak = true := by
      intro v hv
      have hq' := Text.stops_dropWhile v hv
      rw [← hq] at hq'
      have hv' : v ≠ d := fun heq => hhead (heq ▸ hv)
      simpa [hv'] using hq'
    refine ⟨d :: rest.takeWhile q, rest.dropWhile q, ?_, ?_, fun m =>
      ⟨p, hp, hstop, .inr ⟨hk, hverb, ⟨d, hd, hdelimiter, rfl, hstops⟩, hbreak⟩⟩⟩
    · rw [List.cons_append, ← hsplit]
    · rw [List.length_cons, Nat.add_comm]

/-- In every mode a lexeme is spelled as one of its kind, behind the token that the mode belongs to.
-/
theorem spellsToken_read {mode : Mode} {u : CodeUnit} {rest : Text} {previous : Option Token}
    {offset : Nat} (hagrees : mode.Agrees (u :: rest)) (h : mode.Follows previous offset) :
    ∃ span after, u :: rest = span ++ after ∧ (read mode u rest).length = span.length ∧
      ∀ m, ((read mode u rest).toToken m offset).Spells span after previous := by
  cases mode with
  | normal =>
    obtain ⟨span, after, hsplit, hlength, hspells⟩ := hasSpelling_ofMarkup u rest
    exact ⟨span, after, hsplit, hlength, fun m => hspells m offset previous⟩
  | rawText name => exact spellsToken_ofRawBody h
  | verbatim d =>
    obtain rfl := Option.some.inj hagrees.1
    exact spellsToken_ofVerbatim h rest

/-- A mode follows the token that reading goes on in it behind. -/
theorem follows_read (mode : Mode) (u : CodeUnit) (rest : Text) (m : LineMark) (offset : Nat) :
    (read mode u rest).mode.Follows (some ((read mode u rest).toToken m offset))
      (offset + (read mode u rest).length) := by
  cases hmode : (read mode u rest).mode with
  | normal => trivial
  | rawText name =>
    obtain ⟨hk, htext, hraw⟩ := begins_of_mode hmode
    exact ⟨_, rfl, rfl, hk, htext, hraw⟩
  | verbatim d =>
    obtain ⟨hk, htext, hd⟩ := verb_of_mode hmode
    exact ⟨⟨_, rfl, rfl, hk, htext⟩, hd⟩

end Lexeme

/-! ## Tokens -/

namespace Text

variable {source : Text}

/-- A place behind one that cuts no line break, by what is left there. -/
theorem not_cuts_add {offset n : Nat} (h : ¬ source.Cuts offset)
    (hn : ¬ Cuts (source.drop offset) n) : ¬ source.Cuts (offset + n) := by
  rintro ⟨hpos, hreturn, hfeed⟩
  cases n with
  | zero => exact h ⟨hpos, hreturn, hfeed⟩
  | succ n =>
    refine hn ⟨Nat.succ_pos n, ?_, ?_⟩
    · rw [List.getElem?_drop, ← hreturn]
      rfl
    · rw [List.getElem?_drop, ← hfeed]

/-- Every token of a list is spelled as one of its kind, behind the one in front of it. -/
def Spelled (source : Text) : Option Token → List Token → Prop
  | _, [] => True
  | previous, t :: rest => t.WellFormed source previous ∧ Spelled source (some t) rest

theorem Spelled.wellFormed {previous : Option Token} {before after : List Token} {t : Token}
    (h : Spelled source previous (before ++ t :: after)) :
    t.WellFormed source (before.getLast?.or previous) := by
  induction before generalizing previous with
  | nil => exact h.1
  | cons p before ih =>
    have hrest := ih h.2
    rwa [List.getLast?_cons, Option.some_or, ← Option.or_some]

/-- The tokens of what is left of a text are spelled so, behind the token that the mode belongs to.
-/
theorem spelled_tokensFrom {t : Text} {keep : Bool} {mode : Mode} {offset : Nat}
    (hagrees : mode.Agrees t) (hdrop : source.drop offset = t)
    (hlen : offset + t.length = source.length) (hcuts : ¬ source.Cuts offset) (m : LineMark) :
    ∀ previous, mode.Follows previous offset →
      Spelled source previous (t.tokensFrom keep mode m offset) := by
  fun_induction Text.tokensFrom keep mode m offset t with
  | case1 mode m offset =>
    intro previous _
    have hend : offset = source.length := hlen
    have hflags : ∀ {P : Prop}, false = true → P := fun h => absurd h Bool.false_ne_true
    refine ⟨⟨Nat.le_refl _, Nat.le_of_eq hend, hcuts, hcuts, ⟨rfl, ?_, hdrop⟩,
      fun h => h.elim hflags hflags, hflags⟩, trivial⟩
    exact slice_self source offset
  | case2 mode m offset u rest x hc n ih =>
    intro previous _
    have hfits : x.Fits (u :: rest) := Lexeme.fits_read hagrees
    have hle := hfits.length_le
    have hbreak := breakLength_le ((u :: rest).drop x.length)
    rw [List.length_drop] at hbreak
    refine ih trivial (by rw [← hdrop, List.drop_drop]) (by rw [List.length_drop]; omega)
      (not_cuts_add hcuts ?_) previous trivial
    rw [hdrop]
    exact not_cuts_add_breakLength hfits.not_cuts
  | case3 mode m offset u rest x hc ih =>
    intro previous hfollows
    have hfits : x.Fits (u :: rest) := Lexeme.fits_read hagrees
    have hle := hfits.length_le
    have hnext : ¬ source.Cuts (offset + x.length) :=
      not_cuts_add hcuts (by rw [hdrop]; exact hfits.not_cuts)
    obtain ⟨span, after, hsplit, hlength, hspells⟩ := Lexeme.spellsToken_read hagrees hfollows
    have hmarks := Lexeme.marksKind_read mode u rest
    refine ⟨⟨Nat.le_add_right _ _, ?_, hcuts, hnext, ?_, hmarks.kind_of_escaped,
      hmarks.kind_of_unterminated⟩, ih hfits.agrees (by rw [← hdrop, List.drop_drop])
        (by rw [List.length_drop]; omega) hnext _ (Lexeme.follows_read mode u rest m offset)⟩
    · show offset + x.length ≤ source.length
      omega
    · -- The span is the slice, and what comes behind it what is left.
      have hslice : source.slice offset (offset + x.length) = span := by
        rw [slice, hdrop, Nat.add_sub_cancel_left, hsplit, hlength, List.take_append_length]
      have hafter : source.drop (offset + x.length) = after := by
        rw [← List.drop_drop, hdrop, hsplit, hlength, List.drop_append_length]
      show (x.toToken m offset).Spells (source.slice offset (offset + x.length))
        (source.drop (offset + x.length)) previous
      rw [hslice, hafter]
      exact hspells m

/-- Every token of a text is a well-formed lexeme.  Its units are those of one of the spellings of
its kind, its text is what these stand for, nothing behind them goes on with it, and raw text
belongs to the token right in front of it. -/
theorem wellFormed_of_tokens {keep : Bool} {before after : List Token} {t : Token}
    (h : source.tokens keep = before ++ t :: after) : t.WellFormed source before.getLast? := by
  have hagrees : Mode.normal.Agrees source := trivial
  have hfollows : Mode.normal.Follows none 0 := trivial
  have hspelled : Spelled source none (source.tokens keep) := by
    rw [tokens_eq_tokensFrom]
    exact spelled_tokensFrom hagrees rfl (Nat.zero_add _) (not_cuts_zero source) {} none hfollows
  rw [h] at hspelled
  rw [← Option.or_none (o := before.getLast?)]
  exact hspelled.wellFormed

/-- The argument of a `\verb` among units that mean something elsewhere. -/
theorem wellFormed_of_tokens_sample :
    let source : Text := "\\verb|a~%|\\_~\\ \r\nb"
    let before : List Token :=
      [{ kind := .command, flags := { atLineStart := true }, start := 0, stop := 5,
         text := "verb" }]
    let t : Token := { kind := .rawText, start := 5, stop := 10, text := "a~%" }
    source.tokens true = before ++ t :: (source.tokens true).drop 2 ∧
      t.WellFormed source before.getLast? := by
  intro source before t
  have h : source.tokens true = before ++ t :: (source.tokens true).drop 2 := by decide +kernel
  exact ⟨h, wellFormed_of_tokens h⟩

end Text

end LatexMarkdown
