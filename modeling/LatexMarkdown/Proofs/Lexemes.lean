import LatexMarkdown.Proofs.Scanning
import LatexMarkdown.Vocabulary
/-!
  The lexemes of the usual spellings.

  `Lexeme.Covers` says that a lexeme is read off the front of a text and which units it spans.  One
  lemma for each spelling gives its lexeme, whatever follows: braces, line feeds, runs of plain
  units, escapes, commands before a brace, environment markers.  `Text.tokensFrom_of_covers` turns
  each of them into the first token of the text.  Only an opening bracket is read as one
  (`Text.kind_ne_bracketOpen`), so a text without them has no optional arguments.
-/
namespace LatexMarkdown

/-- The lexeme that is read where `span` stands before `rest`, and that spans just these units. -/
structure Lexeme.Covers (x : Lexeme) (mode : Mode) (span rest : Text) : Prop where
  read_eq : ∃ u tail, span = u :: tail ∧ Lexeme.read mode u (tail ++ rest) = x
  length_eq : x.length = span.length

/-- The first token of a text whose first lexeme is known. -/
theorem Text.tokensFrom_of_covers {x : Lexeme} {mode : Mode} {span rest : Text}
    (h : x.Covers mode span rest) (hk : x.kind ≠ .comment) (keep : Bool) (m : LineMark)
    (offset : Nat) :
    Text.tokensFrom keep mode m offset (span ++ rest)
      = x.toToken m offset
        :: Text.tokensFrom keep x.mode (m.after x) (offset + span.length) rest := by
  obtain ⟨⟨u, tail, rfl, hread⟩, hlen⟩ := h
  rw [List.cons_append, Text.tokensFrom]
  simp only [hread, hk, false_and, if_false]
  rw [hlen, ← List.cons_append, List.drop_append_length]

namespace CodeUnit

/-- The units that mean something to the scanner. -/
def special : List CodeUnit :=
  [0x0A, 0x0D, 0x24, 0x25, 0x26, 0x5B, 0x5C, 0x5D, 0x7B, 0x7D, 0x7E]

/-- A class without a special unit in it is a class of plain units. -/
theorem isPlain_eq_true {p : CodeUnit → Bool} {u : CodeUnit} (h : p u = true)
    (hp : ∀ v ∈ special, p v = false := by decide) : u.isPlain = true := by
  have hne : ∀ v ∈ special, u ≠ v := by
    rintro v hv rfl
    rw [hp u hv] at h
    exact absurd h (by decide)
  simp only [special, List.mem_cons, List.not_mem_nil, or_false, forall_eq_or_imp,
    forall_eq] at hne
  unfold isPlain Category.ofUnit
  split <;> simp_all

end CodeUnit

namespace Lexeme

/-! ## Single units -/

/-- The lexemes that are one unit spelled as it is. -/
def singleKind? (u : CodeUnit) : Option TokenKind :=
  match Category.ofUnit u with
  | .groupOpen => some .groupOpen
  | .groupClose => some .groupClose
  | .bracketOpen => some .bracketOpen
  | .bracketClose => some .bracketClose
  | .alignmentTab => some .alignmentTab
  | _ => none

theorem covers_single {u : CodeUnit} {kind : TokenKind} (h : singleKind? u = some kind)
    (rest : Text) : Covers { kind, length := 1, text := [u] } .normal [u] rest := by
  refine ⟨⟨u, [], rfl, ?_⟩, rfl⟩
  simp only [read, ofMarkup, List.nil_append]
  unfold singleKind? at h
  split at h
  case h_6 => exact absurd h (by simp)
  all_goals
    next hc =>
      cases Option.some.inj h
      rw [hc]
      rfl

theorem covers_lineFeed (rest : Text) :
    Covers { kind := .newLine, length := 1, text := [0x0A] } .normal [0x0A] rest := by
  refine ⟨⟨0x0A, [], rfl, ?_⟩, rfl⟩
  show spelled .newLine (0x0A :: ([] ++ rest)) (Text.breakLength (0x0A :: ([] ++ rest))) = _
  have hlen : Text.breakLength (0x0A :: rest) = 1 := by
    unfold Text.breakLength
    split
    · next heq => exact absurd (List.cons.inj heq).1 (by decide)
    · next heq =>
      rw [← (List.cons.inj heq).1]
      rfl
    · next heq => exact absurd heq (by simp)
  simp [hlen, spelled]

theorem covers_tie (rest : Text) :
    Covers { kind := .text, length := 1, text := [0x20] } .normal [0x7E] rest :=
  ⟨⟨0x7E, [], rfl, rfl⟩, rfl⟩

/-! ## Runs of plain units -/

/-- What holds of the first unit. -/
theorem forall_mem_head?_cons {p : CodeUnit → Prop} {u : CodeUnit} (h : p u) (t : Text) :
    ∀ v ∈ (u :: t).head?, p v := by
  rintro v ⟨⟩
  exact h

theorem covers_run {run rest : Text} (hne : run ≠ []) (hrun : ∀ u ∈ run, CodeUnit.isPlain u = true)
    (hrest : ∀ u ∈ rest.head?, CodeUnit.isPlain u = false) :
    Covers { kind := .text, length := run.length, text := run } .normal run rest := by
  obtain ⟨u, tail, rfl⟩ := List.exists_cons_of_ne_nil hne
  refine ⟨⟨u, tail, rfl, ?_⟩, rfl⟩
  have hu : Category.ofUnit u = .other := by simpa [CodeUnit.isPlain] using hrun u (by simp)
  have htail : (tail ++ rest).takeWhile CodeUnit.isPlain = tail := by
    rw [List.takeWhile_append_of_pos fun v hv => hrun v (List.mem_cons_of_mem _ hv)]
    cases rest with
    | nil => simp
    | cons v rest => simp [hrest v rfl]
  simp only [read, ofMarkup, hu, htail]

/-! ## Escapes -/

theorem covers_escape {u : CodeUnit} (h : u.isEscapable = true) (rest : Text) :
    Covers { kind := .text, length := 2, text := [u], flags := { escaped := true } } .normal
      [0x5C, u] rest := by
  refine ⟨⟨0x5C, [u], rfl, ?_⟩, rfl⟩
  simp only [CodeUnit.isEscapable, Bool.or_eq_true, beq_iff_eq] at h
  rcases h with (((((rfl | rfl) | rfl) | rfl) | rfl) | rfl) | rfl <;> rfl

theorem covers_escapedSpace (rest : Text) :
    Covers { kind := .text, length := 2, text := [0x20], flags := { escaped := true } } .normal
      [0x5C, 0x20] rest :=
  ⟨⟨0x5C, [0x20], rfl, rfl⟩, rfl⟩

/-- A forced line break, whatever follows. -/
theorem covers_lineBreak (rest : Text) :
    Covers { kind := .lineBreak, length := 2, text := [0x5C, 0x5C] } .normal [0x5C, 0x5C] rest :=
  ⟨⟨0x5C, [0x5C], rfl, rfl⟩, rfl⟩

/-! ## Commands and markers -/

/-- The name at the front of a text that goes on with something that is no letter and no
asterisk. -/
theorem commandName_append {name rest : Text} (hname : ∀ u ∈ name, CodeUnit.isLetter u = true)
    (hrest : ∀ u ∈ rest.head?, CodeUnit.isLetter u = false ∧ u ≠ 0x2A) :
    commandName (name ++ rest) = name := by
  have htake : (name ++ rest).takeWhile CodeUnit.isLetter = name := by
    rw [List.takeWhile_append_of_pos hname]
    cases rest with
    | nil => simp
    | cons v rest => simp [(hrest v rfl).1]
  have hdrop : (name ++ rest).dropWhile CodeUnit.isLetter = rest := by
    rw [List.dropWhile_append_of_pos hname]
    cases rest with
    | nil => simp
    | cons v rest => simp [(hrest v rfl).1]
  have hstar : ¬ rest.head? = some 0x2A := fun h => (hrest 0x2A h).2 rfl
  rw [commandName, htake, hdrop, if_neg hstar, List.append_nil]

theorem ofEscape_of_letters {name rest : Text} (hne : name ≠ [])
    (hname : ∀ u ∈ name, CodeUnit.isLetter u = true) :
    ofEscape (name ++ rest) = ofCommand (name ++ rest) := by
  obtain ⟨u, tail, rfl⟩ := List.exists_cons_of_ne_nil hne
  simp only [List.cons_append, ofEscape, hname u (by simp), if_true]

/-- A command with an opening brace behind it, no environment marker. -/
theorem covers_command {name : Text} (hne : name ≠ [])
    (hname : ∀ u ∈ name, CodeUnit.isLetter u = true) (hbegin : name ≠ "begin") (hend : name ≠ "end")
    (hverb : name ≠ "verb") {rest : Text}
    (hrest : ∀ u ∈ rest.head?, CodeUnit.isLetter u = false ∧ u ≠ 0x2A) :
    Covers { kind := .command, length := 1 + name.length, text := name } .normal (0x5C :: name)
      rest := by
  refine ⟨⟨0x5C, name, rfl, ?_⟩, by simp [Nat.add_comm]⟩
  have hstar : name ≠ "verb*" := by
    rintro rfl
    exact absurd (hname 0x2A (by decide)) (by decide)
  show ofEscape (name ++ rest) = _
  rw [ofEscape_of_letters hne hname]
  simp only [ofCommand, commandName_append hname hrest, List.drop_append_length, ofMarker?,
    hbegin, hend, if_false]
  congr 1
  unfold modeAfter
  split
  · simp [hverb, hstar]
  · rfl

/-- The kind of an environment marker. -/
def markerKind (ends : Bool) : TokenKind := if ends then .envEnd else .envBegin

/-- The command of an environment marker. -/
def markerCommand (ends : Bool) : Text := if ends then "end" else "begin"

/-- The spelling of an environment marker. -/
def spellMarker (ends : Bool) (name : Text) : Text :=
  0x5C :: (markerCommand ends ++ 0x7B :: (name ++ [0x7D]))

/-- A marker of an environment.  Behind the begin marker of a raw environment its body is read raw. -/
theorem covers_anyMarker (ends : Bool) {name : Text} (hne : name ≠ [])
    (hname : ∀ u ∈ name, CodeUnit.isEnvironmentName u = true) (rest : Text) :
    Covers { kind := markerKind ends, length := (markerCommand ends).length + name.length + 3,
             text := name,
             mode := if ends = false ∧ name ∈ rawEnvironments then .rawText name else .normal }
      .normal (spellMarker ends name) rest := by
  refine ⟨⟨0x5C, _, rfl, ?_⟩, ?_⟩
  · have hletters : ∀ u ∈ markerCommand ends, CodeUnit.isLetter u = true := by
      cases ends <;> decide
    have hbrace : ∀ u ∈ (0x7B :: (name ++ 0x7D :: rest)).head?,
        CodeUnit.isLetter u = false ∧ u ≠ 0x2A :=
      forall_mem_head?_cons (by decide) _
    have henv : environmentName? (0x7B :: (name ++ 0x7D :: rest))
        = some (name, name.length + 2) :=
      environmentName?_eq_some_iff.mpr ⟨[], rest, rfl, by simp, hne, by simp, hname⟩
    have hshape : markerCommand ends ++ 0x7B :: (name ++ [0x7D]) ++ rest
        = markerCommand ends ++ 0x7B :: (name ++ 0x7D :: rest) := by simp
    show ofEscape (markerCommand ends ++ 0x7B :: (name ++ [0x7D]) ++ rest) = _
    rw [hshape, ofEscape_of_letters (by cases ends <;> decide) hletters]
    simp only [ofCommand, commandName_append hletters hbrace, List.drop_append_length]
    have hlen : ∀ k : Nat, 1 + k + (name.length + 2) = k + name.length + 3 := by omega
    cases ends with
    | true =>
      have hne' : Text.ofString "end" ≠ Text.ofString "begin" := by decide
      simp [markerCommand, markerKind, ofMarker?, henv, hne', hlen]
    | false => simp [markerCommand, markerKind, ofMarker?, henv, hlen]
  · simp only [spellMarker, List.length_cons, List.length_append, List.length_nil]
    omega

/-- A marker of an environment that is not read raw. -/
theorem covers_marker (ends : Bool) {name : Text} (hne : name ≠ [])
    (hname : ∀ u ∈ name, CodeUnit.isEnvironmentName u = true) (hraw : name ∉ rawEnvironments)
    (rest : Text) :
    Covers { kind := markerKind ends, length := (markerCommand ends).length + name.length + 3,
             text := name } .normal (spellMarker ends name) rest := by
  have h := covers_anyMarker ends hne hname rest
  rwa [if_neg fun hmode => hraw hmode.2] at h

/-! ## Brackets -/

/-- Only an opening bracket is read as one. -/
theorem eq_of_kind_read {mode : Mode} {u : CodeUnit} {rest : Text}
    (h : (read mode u rest).kind = .bracketOpen) : u = 0x5B := by
  have hkind : (read mode u rest).kind.category? = some .bracketOpen := by rw [h]; rfl
  obtain ⟨-, hcategory⟩ := read_of_category hkind
  unfold Category.ofUnit at hcategory
  split at hcategory <;> simp_all

end Lexeme

/-- A text without opening brackets has none among its tokens. -/
theorem Text.kind_ne_bracketOpen {t : Text} (h : 0x5B ∉ t) (keep : Bool) (mode : Mode)
    (m : LineMark) (offset : Nat) :
    ∀ tok ∈ t.tokensFrom keep mode m offset, tok.kind ≠ .bracketOpen := by
  fun_induction Text.tokensFrom keep mode m offset t with
  | case1 mode m offset =>
    intro tok htok
    rw [List.mem_singleton.mp htok]
    simp [Token.atEnd, Lexeme.toToken]
  | case2 mode m offset u rest x hc n ih =>
    exact ih fun hmem => h (List.mem_of_mem_drop hmem)
  | case3 mode m offset u rest x hc ih =>
    intro tok htok
    rcases List.mem_cons.mp htok with rfl | htok
    · intro hk
      exact h (Lexeme.eq_of_kind_read hk ▸ List.mem_cons_self)
    · exact ih (fun hmem => h (List.mem_of_mem_drop hmem)) tok htok

end LatexMarkdown
