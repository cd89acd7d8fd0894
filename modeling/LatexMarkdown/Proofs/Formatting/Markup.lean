import LatexMarkdown.Proofs.Lexemes
import LatexMarkdown.Proofs.Spacing
/-!
  Text with formatting.

  `Markup` is a sequence of characters, groups in braces and formatted groups, nested to any depth.
  `Markup.spell` writes it as a source and `Markup.erase` is what is left of it without braces and
  command names, the text that formatting is about.
-/
namespace LatexMarkdown.Formatting

/-- Units that may stand in a source as they are; line feeds, brackets and `&` are among them. -/
def isOrdinary (u : CodeUnit) : Bool :=
  !List.contains [0x5C, 0x25, 0x24, 0x7B, 0x7D, 0x7E, 0x0D, 0xA0] u

/-- One character of a source. -/
inductive Glyph
  | unit (u : CodeUnit) (h : isOrdinary u = true)
  | tie
  | escape (u : CodeUnit) (h : u.isEscapable = true)
  | escapedSpace

/-- How it is written. -/
def Glyph.spell : Glyph → Text
  | unit u _ => [u]
  | tie => [0x7E]
  | escape u _ => [0x5C, u]
  | escapedSpace => [0x5C, 0x20]

/-- The unit that it stands for. -/
def Glyph.shown : Glyph → CodeUnit
  | unit u _ | escape u _ => u
  | tie | escapedSpace => 0x20

/-- The formatting commands. -/
inductive Command
  | textbf
  | textit
  | emph
  | texttt
  | textrm
  | textsf
  | textup
  | textnormal
  | underline
  | mbox
  deriving DecidableEq, Repr

/-- The name of a command. -/
def Command.name : Command → Text
  | textbf => "textbf"
  | textit => "textit"
  | emph => "emph"
  | texttt => "texttt"
  | textrm => "textrm"
  | textsf => "textsf"
  | textup => "textup"
  | textnormal => "textnormal"
  | underline => "underline"
  | mbox => "mbox"

/-- Characters and groups one after the other. -/
inductive Markup
  | done
  | glyph (g : Glyph) (rest : Markup)
  | group (inner rest : Markup)
  | styled (c : Command) (inner rest : Markup)

namespace Markup

/-- A group with what stands in it and behind it. -/
def brace (inner rest : Text) : Text := 0x7B :: (inner ++ 0x7D :: rest)

theorem brace_append (inner rest t : Text) : brace inner rest ++ t = brace inner (rest ++ t) := by
  simp [brace]

/-- The source. -/
def spell : Markup → Text
  | done => []
  | glyph g rest => g.spell ++ rest.spell
  | group inner rest => brace inner.spell rest.spell
  | styled c inner rest => 0x5C :: (c.name ++ brace inner.spell rest.spell)

/-- The characters alone. -/
def erase : Markup → Text
  | done => []
  | glyph g rest => g.shown :: rest.erase
  | group inner rest => inner.erase ++ rest.erase
  | styled _ inner rest => inner.erase ++ rest.erase

/-- How deep groups are nested. -/
def depth : Markup → Nat
  | done => 0
  | glyph _ rest => rest.depth
  | group inner rest => max (inner.depth + 1) rest.depth
  | styled _ inner rest => max (inner.depth + 1) rest.depth

end Markup

/-! ## Commands -/

namespace Command

theorem isLetter (c : Command) : ∀ u ∈ c.name, CodeUnit.isLetter u = true := by
  cases c <;> decide

/-- A formatting command is no other. -/
theorem lookup (c : Command) :
    headingLevel? c.name = none ∧ droppedArgumentCount? c.name = none ∧
      ∃ style, InlineStyle.ofCommand? c.name = some style := by
  cases c <;> exact ⟨by decide, by decide, _, rfl⟩

theorem name_ne (c : Command) :
    c.name ≠ [] ∧ c.name ≠ "begin" ∧ c.name ≠ "end" ∧ c.name ≠ "verb" ∧ c.name ≠ "item" := by
  cases c <;> decide

end Command

/-! ## Units -/

/-- An ordinary unit is plain, a line feed, or read by itself and kept. -/
theorem cases_of_isOrdinary {u : CodeUnit} (h : isOrdinary u = true) :
    u.isPlain = true ∨ u = 0x0A ∨ Lexeme.singleKind? u = some .bracketOpen ∨
      Lexeme.singleKind? u = some .bracketClose ∨ Lexeme.singleKind? u = some .alignmentTab := by
  unfold CodeUnit.isPlain Lexeme.singleKind?
  unfold Category.ofUnit
  split <;> simp_all [isOrdinary]

theorem ne_of_isOrdinary {u : CodeUnit} (h : isOrdinary u = true) : u ≠ 0xA0 := by
  rintro rfl
  exact absurd h (by decide)

/-- Ordinary units that are space are space in inline content too. -/
theorem isInlineSpace_of_isSourceSpace {u : CodeUnit} (h : u.isSourceSpace = true)
    (hu : u ≠ 0xA0) : u.isInlineSpace = true := by
  simp only [CodeUnit.isSourceSpace, CodeUnit.isLineSpace, CodeUnit.isLineBreak, Bool.or_eq_true,
    beq_iff_eq] at h
  simp only [CodeUnit.isInlineSpace, Bool.or_eq_true, beq_iff_eq]
  tauto

end LatexMarkdown.Formatting
