import LatexMarkdown.Proofs.Lexemes
import LatexMarkdown.Proofs.Likeness.Relation
import LatexMarkdown.Proofs.Numerals
import LatexMarkdown.Proofs.Tabular.Pipes
/-!
  Tables of words and their source.

  A table has rows of cells; a cell is a run of words, or words in a cell that spans columns.  Rules
  may stand in front of a row.  `Table.print` writes a table as a source.  `Row.texts` are the cells
  that a row comes to and `Row.reports` what is said about it: a rule hides that the first cell spans
  columns, so the command stays literal (`Row.hidesSpan`).
-/
namespace LatexMarkdown

/-- A count of columns that is exact is the number of columns. -/
theorem Parse.columnSpan_ofNat {n : Nat} (hpos : 1 ≤ n) (hlt : n < 2 ^ 53) :
    columnSpan (Text.ofNat n) = n := by
  rw [columnSpan, Number.leadingInt?_ofNat, Option.bind_some, Number.toInt?_ofInt (by omega) hlt,
    Option.getD_some]
  omega

namespace Tabular

/-! ## Words and space -/

/-- Space between words: spaces, tabs and line feeds. -/
def isWordSpace (u : CodeUnit) : Bool := u.isTabSpace || u == 0x0A

/-- Letters, digits and the space between words. -/
def isWordUnit (u : CodeUnit) : Bool := u.isLetter || u.isDigit || isWordSpace u

/-- Letters and digits with space in any place; there may be none of either. -/
structure Words where
  text : Text
  units : ∀ u ∈ text, isWordUnit u = true

/-- Space that stands around something. -/
structure Space where
  text : Text
  units : ∀ u ∈ text, isWordSpace u = true

/-- No space. -/
def Space.none : Space := ⟨[], by simp⟩

theorem Space.wordUnits (s : Space) : ∀ u ∈ s.text, isWordUnit u = true := fun u hu => by
  rw [isWordUnit, s.units u hu, Bool.or_true]

/-- Space is words without letters and digits. -/
def Space.toWords (s : Space) : Words := ⟨s.text, s.wordUnits⟩

/-! ## Tables -/

/-- Text in which braces close; around and between them stand plain units. -/
inductive Braced
  | plain (run : Text) (units : ∀ u ∈ run, CodeUnit.isPlain u = true)
  | group (run : Text) (units : ∀ u ∈ run, CodeUnit.isPlain u = true) (inner rest : Braced)

/-- A cell.  One that spans columns may have space around it. -/
inductive Cell
  | words (w : Words)
  | spanning (before : Space) (count : Nat) (w : Words) (after : Space)

/-- A rule between rows. -/
inductive Rule
  | hline
  | toprule
  | midrule
  | bottomrule
  | cline (first last : Nat)

/-- A row and the rules in front of it. -/
structure Row where
  lead : Space
  rules : List Rule
  first : Cell
  more : List Cell

/-- A table and what describes its columns. -/
structure Table where
  columns : Braced
  first : Row
  more : List Row

/-- The description of one centered column. -/
def Braced.centered : Braced := .plain "c" (by decide)

/-! ## Sources -/

/-- A text in braces. -/
def inBraces (t : Text) : Text := 0x7B :: (t ++ [0x7D])

/-- The source of text in which braces close. -/
def Braced.print : Braced → Text
  | plain run _ => run
  | group run _ inner rest => run ++ 0x7B :: (inner.print ++ 0x7D :: rest.print)

/-- The source of words that span columns. -/
def printSpan (count : Nat) (w : Text) : Text :=
  0x5C :: (Text.ofString "multicolumn"
    ++ (inBraces (Text.ofNat count) ++ (inBraces "c" ++ inBraces w)))

/-- The source of a cell. -/
def Cell.print : Cell → Text
  | words w => w.text
  | spanning before count w after => before.text ++ (printSpan count w.text ++ after.text)

/-- The command of a rule. -/
def Rule.command : Rule → Text
  | hline => "hline"
  | toprule => "toprule"
  | midrule => "midrule"
  | bottomrule => "bottomrule"
  | cline _ _ => "cline"

/-- What stands behind the command of a rule. -/
def Rule.argument : Rule → Text
  | hline | toprule | midrule | bottomrule => []
  | cline first last => inBraces (Text.ofNat first ++ 0x2D :: Text.ofNat last)

/-- The source of a rule, a line of its own. -/
def Rule.print (r : Rule) : Text := 0x5C :: (r.command ++ (r.argument ++ [0x0A]))

/-- The source of the cells behind the first. -/
def printMore (cells : List Cell) : Text := cells.flatMap fun c => 0x26 :: c.print

/-- The source of a row. -/
def Row.print (r : Row) : Text :=
  r.lead.text ++ (r.rules.flatMap Rule.print ++ (r.first.print ++ printMore r.more))

/-- The source of the rows behind the first. -/
def printRows (rows : List Row) : Text := rows.flatMap fun r => 0x5C :: 0x5C :: r.print

/-- The source of a table. -/
def Table.print (t : Table) : Text :=
  Lexeme.spellMarker false "tabular" ++ (inBraces t.columns.print
    ++ (t.first.print ++ (printRows t.more ++ Lexeme.spellMarker true "tabular")))

/-! ## What a table comes to -/

/-- Does the cell span columns? -/
def Cell.isSpanning : Cell → Bool
  | words _ => false
  | spanning _ _ _ _ => true

/-- The texts of a cell and of the empty cells that it spans. -/
def Cell.texts : Cell → List Text
  | words w => [w.text.squeeze]
  | spanning _ count w _ =>
    w.text.squeeze :: List.replicate (Parse.columnSpan (Text.ofNat count) - 1) []

/-- The text of a cell where commands in it stay literal. -/
def Cell.literalText : Cell → Text
  | words w => w.text.squeeze
  | spanning _ count w _ => (printSpan count w.text).squeeze

/-- Does a rule stand before a first cell that spans columns? -/
def Row.hidesSpan (r : Row) : Bool := !r.rules.isEmpty && r.first.isSpanning

/-- The texts of a row's cells. -/
def Row.texts (r : Row) : List Text :=
  (if r.hidesSpan then [r.first.literalText] else r.first.texts) ++ r.more.flatMap Cell.texts

/-- What is said about a row while it is read. -/
def Row.reports (r : Row) : List Degradation :=
  if r.hidesSpan then [.unknownCommand "multicolumn"] else []

/-- The rows of a table. -/
def Table.rows (t : Table) : List Row := t.first :: t.more

/-- Has a row a cell with something in it? -/
def isFilled (row : List Text) : Bool := row.any (· ≠ [])

/-- The texts of the rows that are kept. -/
def Table.texts (t : Table) : List (List Text) := (t.rows.map Row.texts).filter isFilled

/-- What is said about the rows that are shorter than the widest. -/
def raggedReports (rows : List (List Text)) : List Degradation :=
  (rows.filter (·.length < width rows)).map fun r => .raggedTableRow r.length (width rows) "tabular"

/-- All that is said about a table. -/
def Table.reports (t : Table) : List Degradation :=
  t.rows.flatMap Row.reports ++ raggedReports t.texts

/-! ## The units of a source -/

/-- Words have plain units and line feeds. -/
theorem isPlain_of_isWordUnit {u : CodeUnit} (h : isWordUnit u = true) (hne : u ≠ 0x0A) :
    u.isPlain = true := by
  refine CodeUnit.isPlain_eq_true (p := fun u => u.isLetter || u.isDigit || u.isTabSpace) ?_
  simpa [isWordUnit, isWordSpace, hne, ← Bool.or_assoc] using h

theorem isPlain_of_isDigit {u : CodeUnit} (h : u.isDigit = true) : u.isPlain = true :=
  CodeUnit.isPlain_eq_true (p := CodeUnit.isDigit) h

/-- The source of words that span columns has no units but those of the words and of its command. -/
theorem mem_printSpan {u : CodeUnit} {count : Nat} {w : Text} (h : u ∈ printSpan count w) :
    u ∈ w ∨ u.isDigit = true ∨ u ∈ Text.ofString "\\multicolumn\x7bc\x7d" := by
  simp only [printSpan, inBraces, List.mem_cons, List.mem_append, List.not_mem_nil, or_false] at h
  rcases h with rfl | h | (rfl | h | rfl) | (rfl | h | rfl) | rfl | h | rfl
  · exact .inr (.inr (by decide))
  · have hsub : Text.ofString "multicolumn" ⊆ Text.ofString "\\multicolumn\x7bc\x7d" := by decide
    exact .inr (.inr (hsub h))
  · exact .inr (.inr (by decide))
  · exact .inr (.inl (Text.isDigit_of_mem_ofNat u h))
  · exact .inr (.inr (by decide))
  · exact .inr (.inr (by decide))
  · have hsub : Text.ofString "c" ⊆ Text.ofString "\\multicolumn\x7bc\x7d" := by decide
    exact .inr (.inr (hsub h))
  · exact .inr (.inr (by decide))
  · exact .inr (.inr (by decide))
  · exact .inl h
  · exact .inr (.inr (by decide))

/-- Where a spanning cell or a rule begins, a run of plain units is at its end. -/
theorem isPlain_head?_printSpan (count : Nat) (w rest : Text) :
    ∀ u ∈ (printSpan count w ++ rest).head?, CodeUnit.isPlain u = false :=
  Lexeme.forall_mem_head?_cons (by decide) _

theorem Rule.isPlain_head?_print (r : Rule) (rest : Text) :
    ∀ u ∈ (r.print ++ rest).head?, CodeUnit.isPlain u = false :=
  Lexeme.forall_mem_head?_cons (by decide) _

/-- A unit that is none of words and none of the command of spanning cells stands in no cell. -/
theorem Cell.not_mem_print {u : CodeUnit} (hu : isWordUnit u = false)
    (hspan : u ∉ Text.ofString "\\multicolumn\x7bc\x7d") (c : Cell) : u ∉ c.print := by
  have hdigit : u.isDigit ≠ true := by
    intro h
    simp [isWordUnit, h] at hu
  have hwords : ∀ w : Words, u ∉ w.text := fun w hmem => by simp [w.units u hmem] at hu
  cases c with
  | words w => exact hwords w
  | spanning before count w after =>
    intro hmem
    simp only [Cell.print, List.mem_append] at hmem
    rcases hmem with h | h | h
    · exact absurd (before.wordUnits u h) (by simp [hu])
    · rcases mem_printSpan h with h | h | h
      · exact hwords w h
      · exact hdigit h
      · exact hspan h
    · exact absurd (after.wordUnits u h) (by simp [hu])

theorem Braced.bracket_not_mem : ∀ b : Braced, 0x5B ∉ b.print
  | plain run units => fun h => absurd (units _ h) (by decide)
  | group run units inner rest => by
    have hrun : 0x5B ∉ run := fun h => absurd (units _ h) (by decide)
    simp [Braced.print, hrun, inner.bracket_not_mem, rest.bracket_not_mem]

theorem Rule.bracket_not_mem (r : Rule) : 0x5B ∉ r.print := by
  have hdigits : ∀ n, 0x5B ∉ Text.ofNat n := fun n h =>
    absurd (Text.isDigit_of_mem_ofNat _ h) (by decide)
  cases r with
  | cline first last =>
    have hname : 0x5B ∉ Text.ofString "cline" := by decide
    simp [Rule.print, Rule.command, Rule.argument, inBraces, hname, hdigits]
  | _ => decide

theorem Row.bracket_not_mem (r : Row) : 0x5B ∉ r.print := by
  have hcell : ∀ c : Cell, 0x5B ∉ c.print := fun c => c.not_mem_print (by decide) (by decide)
  have hlead : 0x5B ∉ r.lead.text := fun h => absurd (r.lead.units _ h) (by decide)
  simp [Row.print, printMore, hlead, hcell, Rule.bracket_not_mem]

/-- The source of a table has no optional arguments. -/
theorem Table.bracket_not_mem (t : Table) : 0x5B ∉ t.print := by
  have hmarker : ∀ ends, 0x5B ∉ Lexeme.spellMarker ends "tabular" := by decide
  simp [Table.print, printRows, inBraces, hmarker, Row.bracket_not_mem, Braced.bracket_not_mem]

/-! ## The texts of a row -/

/-- A row has as many cells as its cells span columns, and at least one. -/
theorem Row.texts_ne_nil (r : Row) : r.texts ≠ [] := by
  have hfirst : r.first.texts ≠ [] := by cases r.first <;> simp [Cell.texts]
  rw [Row.texts]
  split <;> simp [hfirst]

/-- A row is reported once, if at all. -/
theorem Row.reverse_reports (r : Row) : r.reports.reverse = r.reports := by
  rw [Row.reports]
  split <;> rfl

/-- Where no rule hides a cell, nothing but short rows is reported. -/
theorem Table.reports_of_forall {t : Table} (h : ∀ r ∈ t.rows, r.hidesSpan = false) :
    t.reports = raggedReports t.texts := by
  have hnone : t.rows.flatMap Row.reports = [] := by
    refine List.flatMap_eq_nil_iff.mpr fun r hr => ?_
    rw [Row.reports, h r hr]
    rfl
  rw [Table.reports, hnone, List.nil_append]

/-- No text of a row has a pipe in it. -/
theorem Row.pipe_not_mem (r : Row) : ∀ t ∈ r.texts, 0x7C ∉ t := by
  have hsqueeze : ∀ t : Text, 0x7C ∉ t → 0x7C ∉ t.squeeze := fun t ht h =>
    (Text.mem_or_eq_of_mem_squeeze h).elim ht (by decide)
  have hwords : ∀ w : Words, 0x7C ∉ w.text := fun w h => absurd (w.units _ h) (by decide)
  have hspan : ∀ (count : Nat) (w : Words), 0x7C ∉ printSpan count w.text := by
    intro count w h
    rcases mem_printSpan h with h | h | h
    · exact hwords w h
    · exact absurd h (by decide)
    · exact absurd h (by decide)
  have hcell : ∀ (c : Cell), ∀ t ∈ c.texts, 0x7C ∉ t := by
    intro c t ht
    cases c with
    | words w => exact List.mem_singleton.mp ht ▸ hsqueeze _ (hwords w)
    | spanning before count w after =>
      rcases List.mem_cons.mp ht with rfl | ht
      · exact hsqueeze _ (hwords w)
      · rw [List.eq_of_mem_replicate ht]
        exact List.not_mem_nil
  have hliteral : ∀ c : Cell, 0x7C ∉ c.literalText := by
    intro c
    cases c with
    | words w => exact hsqueeze _ (hwords w)
    | spanning before count w after => exact hsqueeze _ (hspan count w)
  intro t ht
  rw [Row.texts] at ht
  rcases List.mem_append.mp ht with ht | ht
  · split at ht
    · exact List.mem_singleton.mp ht ▸ hliteral r.first
    · exact hcell r.first t ht
  · obtain ⟨c, -, ht⟩ := List.mem_flatMap.mp ht
    exact hcell c t ht

end Tabular

end LatexMarkdown
