import LatexMarkdown.Proofs.Outline.Tree
import LatexMarkdown.Proofs.Tabular.Conversion
/-!
  Tables with one space around their separators.

  The entries of a grid are lines of words, which may be missing, and lines that span columns.
  `printGrid` writes a grid as a source with a row on each line.  Every entry stays in its row and
  column: the conversion is the pipe table of the rows that have something in them (`convert_grid`), as
  long as there is room for it.  A short source may ask for more (`not_forall_convert_grid`).
-/
namespace LatexMarkdown

open Outline (Line)

namespace Tabular

variable {options : Options} {settings : Settings}

/-! ## Grids -/

/-- What stands in a grid: a line of words or none, or one that spans columns. -/
inductive Entry
  | line (line? : Option Line)
  | spanning (count : Nat) (hpos : 1 ≤ count) (hlt : count < 2 ^ 53) (line : Line)

/-- A row has one or more entries. -/
structure Entries where
  first : Entry
  more : List Entry

def Entries.all (r : Entries) : List Entry := r.first :: r.more

/-- The text of a line of words; a missing one has none. -/
def lineText (line? : Option Line) : Text := line?.elim [] Line.text

/-- The source of an entry. -/
def Entry.print : Entry → Text
  | line line? => lineText line?
  | spanning count _ _ l =>
    "\\multicolumn\x7b" ++ Text.ofNat count ++ "\x7d\x7bc\x7d\x7b" ++ l.text ++ "\x7d"

/-- The source of a row. -/
def Entries.print (r : Entries) : Text := Text.join " & " (r.all.map Entry.print)

/-- The source of a grid. -/
def printGrid (rows : List Entries) : Text :=
  "\\begin\x7btabular\x7d\x7bc\x7d" ++ Text.join " \\\\\n" (rows.map Entries.print)
    ++ "\\end\x7btabular\x7d"

/-- The texts of an entry and of the empty columns that it spans. -/
def Entry.texts : Entry → List Text
  | line line? => [lineText line?]
  | spanning count _ _ l => l.text :: List.replicate (count - 1) []

/-- The texts of a row. -/
def Entries.texts (r : Entries) : List Text := r.all.flatMap Entry.texts

/-- The texts of the rows that have something in them. -/
def keptTexts (rows : List Entries) : List (List Text) := (rows.map Entries.texts).filter isFilled

/-! ## Grids as tables -/

/-- The space around a separator. -/
def Space.gap : Space := ⟨[0x20], by decide⟩

/-- The line feed before a row. -/
def Space.feed : Space := ⟨[0x0A], by decide⟩

theorem isWordUnit_of_mem_text {l : Line} {u : CodeUnit} (h : u ∈ l.text) : isWordUnit u = true := by
  rcases Line.mem_text h with h | rfl
  · rw [isWordUnit, h, Bool.true_or]
  · decide

theorem isWordUnit_of_mem_lineText {line? : Option Line} {u : CodeUnit} (h : u ∈ lineText line?) :
    isWordUnit u = true := by
  cases line? with
  | none => cases h
  | some l => exact isWordUnit_of_mem_text h

/-- An entry as a cell with space around it. -/
def Entry.within (before after : Space) : Entry → Cell
  | line line? => .words ⟨before.text ++ (lineText line? ++ after.text), fun u hu => by
      rcases List.mem_append.mp hu with hu | hu
      · exact before.wordUnits u hu
      · rcases List.mem_append.mp hu with hu | hu
        · exact isWordUnit_of_mem_lineText hu
        · exact after.wordUnits u hu⟩
  | spanning count _ _ l => .spanning before count ⟨l.text, fun _ => isWordUnit_of_mem_text⟩ after

theorem Entry.print_within (before after : Space) (e : Entry) :
    (e.within before after).print = before.text ++ (e.print ++ after.text) := by
  cases e with
  | line line? => rfl
  | spanning count hpos hlt l =>
    have hspan : (spanning count hpos hlt l).print = printSpan count l.text := by
      simp [Entry.print, printSpan, inBraces]
      rfl
    rw [hspan]
    rfl

theorem squeeze_lineText (line? : Option Line) : (lineText line?).squeeze = lineText line? := by
  cases line? with
  | none => rfl
  | some l => exact l.tight.squeeze_eq

theorem Entry.texts_within (before after : Space) (e : Entry) :
    (e.within before after).texts = e.texts := by
  cases e with
  | line line? =>
    rw [Entry.within, Cell.texts, Entry.texts,
      Text.squeeze_append_of_space_left before.isInlineSpace,
      Text.squeeze_append_of_space _ after.isInlineSpace, squeeze_lineText]
  | spanning count hpos hlt l =>
    -- Up to here the count is a text; it is exact, so as many columns are read as were written.
    rw [Entry.within, Cell.texts, Entry.texts, l.tight.squeeze_eq,
      Parse.columnSpan_ofNat hpos hlt]

/-- What stands behind something: a separator has space before it, the last one is closed otherwise.
-/
def spaceBefore {α : Type} (more : List α) (close : Space) : Space :=
  if more.isEmpty then close else .gap

/-- The cells of the entries behind the first. -/
def moreCells (close : Space) : List Entry → List Cell
  | [] => []
  | e :: more => e.within .gap (spaceBefore more close) :: moreCells close more

/-- A row of a table, with space before and behind it. -/
def Entries.toRow (lead close : Space) (r : Entries) : Row where
  lead
  rules := []
  first := r.first.within .none (spaceBefore r.more close)
  more := moreCells close r.more

/-- The rows of a table behind the first. -/
def moreRows : List Entries → List Row
  | [] => []
  | r :: more => r.toRow .feed (spaceBefore more .none) :: moreRows more

/-- A grid as a table.  Without rows it has one row with nothing in it. -/
def gridTable (rows : List Entries) : Table where
  columns := .centered
  first := match rows with
    | [] => ⟨.none, [], .words Space.none.toWords, []⟩
    | r :: more => r.toRow .none (spaceBefore more .none)
  more := moreRows rows.tail

theorem print_cells (before close : Space) (e : Entry) (more : List Entry) :
    (e.within before (spaceBefore more close)).print ++ printMore (moreCells close more)
      = before.text ++ (Text.join " & " ((e :: more).map Entry.print) ++ close.text) := by
  -- The induction moves to the next entry, which has a separator and not `before` in front of it.
  induction more generalizing e before with
  | nil =>
    rw [Entry.print_within, List.map_singleton, Text.join_singleton]
    exact List.append_nil _
  | cons e' more ih =>
    have hmore : printMore (moreCells close (e' :: more))
        = 0x26 :: ((e'.within .gap (spaceBefore more close)).print
            ++ printMore (moreCells close more)) := rfl
    rw [hmore, ih, Entry.print_within]
    simp only [List.map_cons, Text.join_cons_cons, List.append_assoc]
    rfl

theorem Entries.print_toRow (lead close : Space) (r : Entries) :
    (r.toRow lead close).print = lead.text ++ (r.print ++ close.text) := by
  have hcells := print_cells .none close r.first r.more
  rw [Row.print]
  exact congrArg (lead.text ++ ·) hcells

theorem print_rows (lead : Space) (r : Entries) (more : List Entries) :
    (r.toRow lead (spaceBefore more .none)).print ++ printRows (moreRows more)
      = lead.text ++ Text.join " \\\\\n" ((r :: more).map Entries.print) := by
  induction more generalizing r lead with
  | nil =>
    rw [Entries.print_toRow, List.map_singleton, Text.join_singleton, List.append_assoc]
    simp [spaceBefore, Space.none, moreRows, printRows]
  | cons r' more ih =>
    have hmore : printRows (moreRows (r' :: more))
        = 0x5C :: 0x5C :: ((r'.toRow .feed (spaceBefore more .none)).print
            ++ printRows (moreRows more)) := rfl
    rw [hmore, ih, Entries.print_toRow]
    simp only [List.map_cons, Text.join_cons_cons, List.append_assoc]
    rfl

/-- The table of a grid is written as the grid. -/
theorem print_gridTable (rows : List Entries) : (gridTable rows).print = printGrid rows := by
  have hrows : (gridTable rows).first.print ++ printRows (gridTable rows).more
      = Text.join " \\\\\n" (rows.map Entries.print) := by
    cases rows with
    | nil => rfl
    | cons r more => exact print_rows .none r more
  rw [Table.print, printGrid, ← hrows]
  simp only [List.append_assoc]
  rfl

theorem Entries.texts_toRow (lead close : Space) (r : Entries) :
    (r.toRow lead close).texts = r.texts := by
  have hmore : (moreCells close r.more).flatMap Cell.texts = r.more.flatMap Entry.texts := by
    induction r.more with
    | nil => rfl
    | cons e more ih =>
      rw [moreCells, List.flatMap_cons, List.flatMap_cons, Entry.texts_within, ih]
  have hfirst : (r.toRow lead close).first.texts = r.first.texts := Entry.texts_within _ _ _
  have hhides : (r.toRow lead close).hidesSpan = false := rfl
  rw [Row.texts, hhides, if_neg (by simp), hfirst]
  exact congrArg (r.first.texts ++ ·) hmore

theorem texts_moreRows (rows : List Entries) :
    (moreRows rows).map Row.texts = rows.map Entries.texts := by
  induction rows with
  | nil => rfl
  | cons r more ih => rw [moreRows, List.map_cons, List.map_cons, Entries.texts_toRow, ih]

theorem texts_gridTable (rows : List Entries) : (gridTable rows).texts = keptTexts rows := by
  cases rows with
  | nil =>
    -- The row that stands for none has nothing in it, so it is not kept.
    rfl
  | cons r more =>
    rw [Table.texts, Table.rows, List.map_cons, keptTexts, List.map_cons, ← texts_moreRows,
      ← Entries.texts_toRow .none (spaceBefore more .none) r]
    rfl

theorem hidesSpan_of_mem_moreRows {rows : List Entries} {r : Row} (h : r ∈ moreRows rows) :
    r.hidesSpan = false := by
  induction rows with
  | nil => cases h
  | cons e more ih =>
    rcases List.mem_cons.mp h with rfl | h
    · rfl
    · exact ih h

/-- No rules stand in a grid, so nothing but short rows is reported. -/
theorem reports_gridTable (rows : List Entries) :
    (gridTable rows).reports = raggedReports (keptTexts rows) := by
  rw [Table.reports_of_forall, texts_gridTable]
  intro r hr
  rcases List.mem_cons.mp hr with rfl | hr
  · cases rows <;> rfl
  · exact hidesSpan_of_mem_moreRows hr

/-! ## The conversion of a grid -/

/-- A grid is converted to the pipe table of its rows that have something in them, as long as a text
has room for it: each entry in its row and column, each row filled up to the widest, and one report for
every row that was shorter. -/
theorem convert_grid (hsettings : options.resolve = .ok settings) (rows : List Entries)
    (hroom : (pipeTable (keptTexts rows)).length ≤ Markdown.lengthLimit) :
    ∃ diagnostics,
      convertWithDiagnostics (printGrid rows) options
        = .ok ⟨pipeTable (keptTexts rows), diagnostics⟩ ∧
      diagnostics.map (·.cause)
        = ((keptTexts rows).filter (·.length < width (keptTexts rows))).map fun row =>
            .raggedTableRow row.length (width (keptTexts rows)) "tabular" := by
  rw [← texts_gridTable] at hroom
  obtain ⟨diagnostics, hconvert, hcauses⟩ := convert_print_of_length hsettings hroom
  rw [print_gridTable, texts_gridTable] at hconvert
  rw [reports_gridTable] at hcauses
  exact ⟨diagnostics, hconvert, hcauses⟩

/-- A header, a row with nothing in it, and a short row that spans two columns. -/
theorem convert_grid_sample :
    let a : Line := ⟨⟨"a", by decide, by decide⟩, []⟩
    let bc : Line := ⟨⟨"b", by decide, by decide⟩, [⟨"c", by decide, by decide⟩]⟩
    let rows : List Entries := [⟨.line (some a), [.line none, .line (some bc)]⟩,
      ⟨.line none, [.line none]⟩, ⟨.spanning 2 (by decide) (by decide) bc, []⟩]
    printGrid rows
        = "\\begin\x7btabular\x7d\x7bc\x7da &  & b c \\\\\n &  \\\\\n"
          ++ "\\multicolumn\x7b2\x7d\x7bc\x7d\x7bb c\x7d\\end\x7btabular\x7d" ∧
      ∃ diagnostics,
        convertWithDiagnostics (printGrid rows) {}
          = .ok ⟨"| a |  | b c |\n| --- | --- | --- |\n| b c |  |  |", diagnostics⟩ ∧
        diagnostics.map (·.cause) = [.raggedTableRow 2 3 "tabular"] := by
  intro a bc rows
  have hkept : keptTexts rows = [[("a" : Text), [], "b c"], ["b c", []]] := by decide +kernel
  have hroom : (pipeTable (keptTexts rows)).length ≤ Markdown.lengthLimit := by
    rw [hkept]
    decide
  have hresolve : ({} : Options).resolve = .ok {} := rfl
  obtain ⟨diagnostics, hconvert, hcauses⟩ := convert_grid hresolve rows hroom
  rw [hkept] at hconvert hcauses
  exact ⟨by decide +kernel, diagnostics, hconvert, hcauses⟩

/-! ## A grid without room -/

/-- One word. -/
def letter : Line := ⟨⟨"a", by decide, by decide⟩, []⟩

section

variable {columns : Nat} (hpos : 1 ≤ columns) (hlt : columns < 2 ^ 53) (more : Nat)

/-- A row that spans so many columns, and more rows of one word. -/
def wideGrid : List Entries :=
  ⟨.spanning columns hpos hlt letter, []⟩ :: List.replicate more ⟨.line (some letter), []⟩

theorem keptTexts_wideGrid : keptTexts (wideGrid hpos hlt more)
    = (letter.text :: List.replicate (columns - 1) []) :: List.replicate more [letter.text] := by
  have hfilled : ∀ texts, isFilled (letter.text :: texts) = true := fun _ => rfl
  have hwide : Entries.texts ⟨.spanning columns hpos hlt letter, []⟩
      = letter.text :: List.replicate (columns - 1) [] := by
    simp [Entries.texts, Entries.all, Entry.texts]
  have hword : Entries.texts ⟨.line (some letter), []⟩ = [letter.text] := rfl
  rw [keptTexts, wideGrid, List.map_cons, List.map_replicate, hwide, hword,
    List.filter_cons_of_pos (hfilled _)]
  congr 1
  exact List.filter_eq_self.mpr fun row h => (List.eq_of_mem_replicate h).symm ▸ hfilled []

/-- What stands around the cells may be more than a text has room for. -/
theorem convert_wideGrid (h : Markdown.lengthLimit < Markdown.frameLength (more + 1) columns) :
    ∃ e, convertWithDiagnostics (printGrid (wideGrid hpos hlt more)) {} = .error (.size e) := by
  have hresolve : ({} : Options).resolve = .ok {} := rfl
  obtain ⟨ds, -, hconvert⟩ := convert_print hresolve (gridTable (wideGrid hpos hlt more))
  rw [print_gridTable, texts_gridTable] at hconvert
  have hlength : (keptTexts (wideGrid hpos hlt more)).length = more + 1 := by
    rw [keptTexts_wideGrid, List.length_cons, List.length_replicate]
  have hwidth : columns ≤ width (keptTexts (wideGrid hpos hlt more)) := by
    have hle : (letter.text :: List.replicate (columns - 1) []).length
        ≤ width (keptTexts (wideGrid hpos hlt more)) := by
      rw [keptTexts_wideGrid]
      exact le_width List.mem_cons_self
    rw [List.length_cons, List.length_replicate] at hle
    omega
  have hframe : ¬ Markdown.frameLength (keptTexts (wideGrid hpos hlt more)).length
      (width (keptTexts (wideGrid hpos hlt more))) ≤ Markdown.lengthLimit := by
    have hmono := Nat.mul_le_mul_left (more + 1) (Nat.add_le_add_right (Nat.mul_le_mul_left 3 hwidth) 2)
    rw [Markdown.frameLength] at h
    rw [hlength, Markdown.frameLength]
    omega
  rw [hconvert, if_neg hframe]
  exact ⟨_, rfl⟩

end

/-- Not every grid is converted: a span of 300000 columns and 599 rows below it ask for more than a
text has room for. -/
theorem not_forall_convert_grid :
    ¬ ∀ rows : List Entries, ∃ output diagnostics,
      convertWithDiagnostics (printGrid rows) {} = .ok ⟨output, diagnostics⟩ := by
  intro hall
  have hpos : 1 ≤ 300000 := by decide
  have hlt : 300000 < 2 ^ 53 := by decide
  obtain ⟨output, diagnostics, hconvert⟩ := hall (wideGrid hpos hlt 599)
  obtain ⟨e, herror⟩ := convert_wideGrid hpos hlt 599 (by decide)
  cases hconvert.symm.trans herror

end Tabular

end LatexMarkdown
