import LatexMarkdown.Proofs.Lexemes
import LatexMarkdown.Parse.State
/-!
  Markers that have to fit together, as a stack.

  `Nesting.Piece` spells sources that are text, braces and the markers of environments whose body is
  blocks.  `Nesting.balance` reads such a source from left to right with one stack of open markers;
  it knows nothing of paragraphs, blank lines or content.  The lemmas about its tokens take a source
  apart the way the scanner does (`run_induction`).
-/
namespace LatexMarkdown.Nesting

open Parse (nestingLimit)

/-! ## Sources -/

/-- Environments whose body is blocks and that take no arguments. -/
inductive BlockEnvironment
  | quote
  | quotation
  | center
  | document
  | abstract
  deriving DecidableEq, Repr

/-- The name of an environment. -/
def BlockEnvironment.name : BlockEnvironment → Text
  | quote => "quote"
  | quotation => "quotation"
  | center => "center"
  | document => "document"
  | abstract => "abstract"

/-- A piece of a source.  Letters, digits and spaces are plain units, as is every unit that means
nothing to the scanner. -/
inductive Piece
  | plain (u : CodeUnit) (h : u.isPlain = true)
  | lineFeed
  | openBrace
  | closeBrace
  | begins (e : BlockEnvironment)
  | ends (e : BlockEnvironment)

/-- The spelling of a piece. -/
def Piece.spell : Piece → Text
  | plain u _ => [u]
  | lineFeed => [0x0A]
  | openBrace => [0x7B]
  | closeBrace => [0x7D]
  | begins e => Lexeme.spellMarker false e.name
  | ends e => Lexeme.spellMarker true e.name

/-- The source that pieces spell. -/
def spell (pieces : List Piece) : Text := pieces.flatMap Piece.spell

/-! ## The stack -/

/-- A marker that is open, with its offset. -/
inductive Opened
  | brace (offset : Nat)
  | environment (e : BlockEnvironment) (offset : Nat)

/-- A flaw and the offset of the marker it is about. -/
abbrev Complaint := Flaw × Nat

/-- What it means that a marker stays open. -/
def Opened.unclosed : Opened → Complaint
  | brace offset => (.unclosedGroup "\x7b", offset)
  | environment e offset => (.unclosedEnvironment e.name, offset)

/-- Opens one more marker at an offset, unless too many are open. -/
def push (x : Opened) (offset : Nat) (stack : List Opened) : Except Complaint (List Opened) :=
  if nestingLimit < stack.length + 1 then .error (.nestingTooDeep nestingLimit, offset)
  else .ok (x :: stack)

/-- The stack after a piece that stands at an offset. -/
def Piece.move (offset : Nat) (stack : List Opened) : Piece → Except Complaint (List Opened)
  | plain _ _ | lineFeed => .ok stack
  | openBrace => push (.brace offset) offset stack
  | closeBrace =>
    match stack with
    | .brace _ :: below => .ok below
    | _ => .error (.unexpectedGroupClose, offset)
  | begins e =>
    match stack with
    | .brace _ :: _ => .error (.nestedEnvironment e.name, offset)
    | _ => push (.environment e offset) offset stack
  | ends e =>
    match stack with
    | [] => .error (.unexpectedEnvironmentEnd e.name, offset)
    | .brace opener :: _ => .error (Opened.brace opener).unclosed
    | .environment opened _ :: below =>
      if opened = e then .ok below
      else .error (.mismatchedEnvironment e.name opened.name, offset)

/-- Reads pieces that begin at an offset over a stack of open markers; in the end none is left. -/
def balance (stack : List Opened) (offset : Nat) : List Piece → Except Complaint Unit
  | [] =>
    match stack with
    | [] => .ok ()
    | top :: _ => .error top.unclosed
  | p :: rest => do
    let stack ← p.move offset stack
    balance stack (offset + p.spell.length) rest

/-! ## The tokens of a source -/

theorem name_ne_nil (e : BlockEnvironment) : e.name ≠ [] := by cases e <;> decide

theorem isEnvironmentName_name (e : BlockEnvironment) :
    ∀ u ∈ e.name, CodeUnit.isEnvironmentName u = true := by
  cases e <;> decide

theorem name_not_mem_rawEnvironments (e : BlockEnvironment) : e.name ∉ rawEnvironments := by
  cases e <;> decide

theorem name_injective {d e : BlockEnvironment} (h : d.name = e.name) : d = e := by
  revert h
  cases d <;> cases e <;> decide

/-- The lexeme of a marker. -/
def markerLexeme (ends : Bool) (e : BlockEnvironment) : Lexeme where
  kind := Lexeme.markerKind ends
  length := (Lexeme.markerCommand ends).length + e.name.length + 3
  text := e.name

theorem covers_spellMarker (ends : Bool) (e : BlockEnvironment) (rest : Text) :
    (markerLexeme ends e).Covers .normal (Lexeme.spellMarker ends e.name) rest :=
  Lexeme.covers_marker ends (name_ne_nil e) (isEnvironmentName_name e)
    (name_not_mem_rawEnvironments e) rest

/-- Is the piece a plain unit? -/
def Piece.isPlain : Piece → Bool
  | plain _ _ => true
  | _ => false

theorem spell_cons (p : Piece) (pieces : List Piece) : spell (p :: pieces) = p.spell ++ spell pieces :=
  List.flatMap_cons

theorem spell_append (pieces more : List Piece) : spell (pieces ++ more) = spell pieces ++ spell more :=
  List.flatMap_append

/-- Plain pieces spell plain units, one each. -/
theorem isPlain_spell {run : List Piece} (h : ∀ p ∈ run, p.isPlain = true) :
    (∀ u ∈ spell run, CodeUnit.isPlain u = true) ∧ (spell run).length = run.length := by
  induction run with
  | nil => exact ⟨by simp [spell], rfl⟩
  | cons p rest ih =>
    obtain ⟨hplain, hlen⟩ := ih fun q hq => h q (List.mem_cons_of_mem _ hq)
    have hp := h p List.mem_cons_self
    cases p with
    | plain u hu =>
      rw [spell_cons]
      refine ⟨?_, by simp [Piece.spell, hlen]⟩
      intro v hv
      rcases List.mem_append.mp hv with hv | hv
      · rw [Piece.spell, List.mem_singleton] at hv
        exact hv ▸ hu
      · exact hplain v hv
    | _ => exact absurd hp (by simp [Piece.isPlain])

/-- Pieces that do not begin with a plain unit spell a text that does not. -/
theorem isPlain_head?_spell {pieces : List Piece} (h : ∀ p ∈ pieces.head?, p.isPlain = false) :
    ∀ u ∈ (spell pieces).head?, CodeUnit.isPlain u = false := by
  cases pieces with
  | nil => simp [spell]
  | cons p rest =>
    have hp := h p rfl
    rw [spell_cons]
    cases p with
    | plain u hu => exact absurd hp (by simp [Piece.isPlain])
    | _ =>
      simp only [Piece.spell, Lexeme.spellMarker, List.cons_append, List.head?_cons, Option.mem_def,
        Option.some.injEq, forall_eq']
      decide

/-- Plain units leave the stack as it is. -/
theorem balance_append_of_isPlain {run : List Piece} (h : ∀ p ∈ run, p.isPlain = true)
    (stack : List Opened) (offset : Nat) (rest : List Piece) :
    balance stack offset (run ++ rest) = balance stack (offset + (spell run).length) rest := by
  induction run generalizing offset with
  | nil => simp [spell]
  | cons p run ih =>
    have hp := h p List.mem_cons_self
    cases p with
    | plain u hu =>
      rw [List.cons_append, balance, spell_cons, List.length_append, ← Nat.add_assoc,
        ← ih (fun q hq => h q (List.mem_cons_of_mem _ hq))]
      rfl
    | _ => exact absurd hp (by simp [Piece.isPlain])

/-- Pieces taken apart the way the scanner does: a marker or line feed alone, plain units a run at a
time. -/
@[elab_as_elim]
theorem run_induction {motive : List Piece → Prop} (nil : motive [])
    (marker : ∀ p rest, p.isPlain = false → motive rest → motive (p :: rest))
    (run : ∀ run rest, run ≠ [] → (∀ p ∈ run, p.isPlain = true) →
      (∀ p ∈ rest.head?, p.isPlain = false) → motive rest → motive (run ++ rest))
    (pieces : List Piece) : motive pieces := by
  induction hn : pieces.length using Nat.strong_induction_on generalizing pieces with
  | _ n ih =>
    subst hn
    cases pieces with
    | nil => exact nil
    | cons p rest =>
      cases hp : p.isPlain with
      | false => exact marker p rest hp (ih rest.length (by simp) rest rfl)
      | true =>
        have hsplit : (p :: rest).takeWhile Piece.isPlain ++ (p :: rest).dropWhile Piece.isPlain
            = p :: rest := List.takeWhile_append_dropWhile
        have hne : (p :: rest).takeWhile Piece.isPlain ≠ [] := by simp [hp]
        have hlen := congrArg List.length hsplit
        rw [List.length_append] at hlen
        have hpos := List.length_pos_iff.mpr hne
        rw [← hsplit]
        refine run _ _ hne (fun q hq => List.mem_takeWhile_imp hq) ?_
          (ih _ (by omega) _ rfl)
        intro q hq
        have hnot := List.head?_dropWhile_not Piece.isPlain (p :: rest)
        rw [Option.mem_def.mp hq] at hnot
        simpa using hnot

/-- The lexeme of a marker or line feed. -/
def Piece.lexeme : Piece → Lexeme
  | plain u _ => { kind := .text, length := 1, text := [u] }
  | lineFeed => { kind := .newLine, length := 1, text := [0x0A] }
  | openBrace => { kind := .groupOpen, length := 1, text := [0x7B] }
  | closeBrace => { kind := .groupClose, length := 1, text := [0x7D] }
  | begins e => markerLexeme false e
  | ends e => markerLexeme true e

theorem covers_lexeme {p : Piece} (h : p.isPlain = false) (rest : Text) :
    p.lexeme.Covers .normal p.spell rest := by
  cases p with
  | plain u hu => exact absurd h (by simp [Piece.isPlain])
  | lineFeed => exact Lexeme.covers_lineFeed rest
  | openBrace => exact Lexeme.covers_single rfl rest
  | closeBrace => exact Lexeme.covers_single rfl rest
  | begins e => exact covers_spellMarker false e rest
  | ends e => exact covers_spellMarker true e rest

/-- The tokens of a source that begins with a marker or line feed. -/
theorem tokensFrom_marker {p : Piece} (h : p.isPlain = false) (keep : Bool) (m : LineMark)
    (offset : Nat) (rest : List Piece) :
    Text.tokensFrom keep .normal m offset (spell (p :: rest))
      = p.lexeme.toToken m offset
        :: Text.tokensFrom keep .normal (m.after p.lexeme) (offset + p.spell.length) (spell rest) := by
  have hk : p.lexeme.kind ≠ .comment := by 
    cases p <;> simp [Piece.lexeme, markerLexeme, Lexeme.markerKind]
  have hmode : p.lexeme.mode = .normal := by cases p <;> rfl
  rw [spell_cons, Text.tokensFrom_of_covers (covers_lexeme h _) hk, hmode]

/-- The lexeme of a run of plain units. -/
def runLexeme (run : List Piece) : Lexeme :=
  { kind := .text, length := (spell run).length, text := spell run }

/-- The tokens of a source that begins with a run of plain units. -/
theorem tokensFrom_run {run rest : List Piece} (hne : run ≠ [])
    (hrun : ∀ p ∈ run, p.isPlain = true) (hrest : ∀ p ∈ rest.head?, p.isPlain = false) (keep : Bool)
    (m : LineMark) (offset : Nat) :
    Text.tokensFrom keep .normal m offset (spell (run ++ rest))
      = (runLexeme run).toToken m offset
        :: Text.tokensFrom keep .normal (m.after (runLexeme run)) (offset + (spell run).length)
          (spell rest) := by
  obtain ⟨hplain, hlen⟩ := isPlain_spell hrun
  have hne' : spell run ≠ [] := by
    rw [← List.length_pos_iff, hlen]
    exact List.length_pos_iff.mpr hne
  rw [spell_append]
  exact Text.tokensFrom_of_covers (Lexeme.covers_run hne' hplain (isPlain_head?_spell hrest))
    (by simp) keep m offset

/-- No piece has a bracket in it. -/
theorem bracket_not_mem_spell (pieces : List Piece) : 0x5B ∉ spell pieces := by
  intro hmem
  obtain ⟨p, -, hp⟩ := List.mem_flatMap.mp hmem
  cases p with
  | plain u hu =>
    rw [Piece.spell, List.mem_singleton] at hp
    rw [← hp] at hu
    exact absurd hu (by decide)
  | begins e | ends e => cases e <;> exact absurd hp (by decide)
  | _ => exact absurd hp (by decide)

end LatexMarkdown.Nesting
