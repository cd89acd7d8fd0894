import LatexMarkdown.Proofs.Spacing
import LatexMarkdown.Markdown
/-!
  Rows of texts as a pipe table.

  `pipeTable` says what a table should be written as: every row filled up to the widest, a line of
  dashes below the first.  A table whose cells are plain texts is written so (`join_tableLines`), as
  long as no row is empty and no text has a pipe in it.  It is never shorter than its frame
  (`frameLength_le`).
-/
namespace LatexMarkdown

namespace Tabular

open Markdown

/-- The cells of the widest row. -/
def width (rows : List (List Text)) : Nat := (rows.map List.length).foldr max 0

/-- A line of a pipe table. -/
def pipeLine (cells : List Text) : Text := "| " ++ Text.join " | " cells ++ " |"

/-- A row filled up with empty cells. -/
def fill (columns : Nat) (row : List Text) : List Text :=
  row ++ List.replicate (columns - row.length) []

/-- Rows as a pipe table, the first one as its header; each is filled up to the widest. -/
def pipeTable (rows : List (List Text)) : Text :=
  match rows with
  | [] => []
  | header :: rest =>
    Text.join [0x0A] (pipeLine (fill (width rows) header)
      :: pipeLine (List.replicate (width rows) "---")
      :: rest.map fun row => pipeLine (fill (width rows) row))

/-- A text as a table cell. -/
def cellOf (t : Text) : TableCell Unit :=
  ⟨.span () (), if t = [] then [] else [.text (.span () ()) t]⟩

/-- Texts as a table row. -/
def rowOf (row : List Text) : TableRow Unit := ⟨.span () (), row.map cellOf⟩

theorem le_width {rows : List (List Text)} {row : List Text} (h : row ∈ rows) :
    row.length ≤ width rows := by
  rw [width]
  induction rows with
  | nil => cases h
  | cons r rest ih =>
    rw [List.map_cons, List.foldr_cons]
    rcases List.mem_cons.mp h with rfl | h
    · exact Nat.le_max_left _ _
    · exact Nat.le_trans (ih h) (Nat.le_max_right _ _)

theorem columnCount_rowOf (rows : List (List Text)) :
    TableRow.columnCount (rows.map rowOf) = width rows := by
  have hfold : ∀ n, (rows.map rowOf).foldl (fun n r => max n r.cells.length) n
      = max n (width rows) := by
    induction rows with
    | nil => intro n; exact (Nat.max_zero n).symm
    | cons r rest ih =>
      intro n
      have hlength : (rowOf r).cells.length = r.length := List.length_map _
      rw [List.map_cons, List.foldl_cons, ih, hlength]
      exact Nat.max_assoc n r.length (width rest)
  rw [TableRow.columnCount, hfold, Nat.zero_max]

/-- A text without pipes has none to escape. -/
theorem escapePipes_eq {t : Text} (h : 0x7C ∉ t) :
    t.replaceEach (· == 0x7C) (fun _ => "\\|") = t := by
  induction t with
  | nil => rfl
  | cons u rest ih =>
    have hu : (u == 0x7C) = false := beq_eq_false_iff_ne.mpr fun heq => h (heq ▸ List.mem_cons_self)
    have hrest := ih fun hmem => h (List.mem_cons_of_mem u hmem)
    rw [Text.replaceEach] at hrest ⊢
    rw [List.flatMap_cons, hu, if_neg (by simp), hrest]
    rfl

theorem cellText_cellOf {t : Text} (h : 0x7C ∉ t) : cellText (cellOf t) = t := by
  have hone : oneLine (cellOf t).children = t := by
    by_cases hnil : t = []
    · subst hnil
      rfl
    · rw [cellOf, if_neg hnil, oneLine, inlineText, spanText, inlineText, List.append_nil]
  rw [cellText, hone, escapePipes_eq h]

theorem rowLine_rowOf (columns : Nat) {row : List Text} (h : ∀ t ∈ row, 0x7C ∉ t) :
    rowLine columns (rowOf row) = pipeLine (fill columns row) := by
  have hcells : (rowOf row).cells.map cellText = row := by
    rw [rowOf, List.map_map]
    exact (List.map_congr_left fun t ht => cellText_cellOf (h t ht)).trans (List.map_id row)
  rw [rowLine, hcells]
  rfl

/-- The line below the header is a row of dashes. -/
theorem separatorLine_eq {columns : Nat} (h : 0 < columns) :
    separatorLine columns = pipeLine (List.replicate columns "---") := by
  have hjoin : ∀ (separator t : Text) (n : Nat), Text.join separator (List.replicate (n + 2) t)
      = t ++ (separator ++ Text.join separator (List.replicate (n + 1) t)) :=
    fun separator t n => Text.join_cons_cons separator t t (List.replicate n t)
  have hdashes : ∀ n, Text.join [] (List.replicate (n + 1) (Text.ofString " --- |"))
      = 0x20 :: (Text.join " | " (List.replicate (n + 1) (Text.ofString "---"))
          ++ Text.ofString " |") := by
    intro n
    induction n with
    | zero =>
      rw [List.replicate_one, List.replicate_one, Text.join_singleton, Text.join_singleton]
      rfl
    | succ n ih =>
      rw [hjoin, ih, hjoin, List.append_assoc, List.append_assoc]
      rfl
  obtain ⟨n, rfl⟩ := Nat.exists_eq_add_one_of_ne_zero (Nat.ne_of_gt h)
  rw [separatorLine, hdashes]
  rfl

/-- The lines of a table of plain texts are its pipe table. -/
theorem join_tableLines {rows : List (List Text)} (hne : ∀ r ∈ rows, r ≠ [])
    (hpipe : ∀ r ∈ rows, ∀ t ∈ r, 0x7C ∉ t) :
    Text.join [0x0A] (tableLines (rows.map rowOf)) = pipeTable rows := by
  cases rows with
  | nil => rfl
  | cons header rest =>
    have hheader : 0 < header.length := List.length_pos_iff.mpr (hne header List.mem_cons_self)
    have hpos : 0 < width (header :: rest) :=
      Nat.lt_of_lt_of_le hheader (le_width List.mem_cons_self)
    have hcount := columnCount_rowOf (header :: rest)
    rw [List.map_cons] at hcount ⊢
    rw [tableLines, hcount, rowLine_rowOf _ (hpipe header List.mem_cons_self),
      separatorLine_eq hpos, List.map_map, pipeTable]
    congr 3
    exact List.map_congr_left fun r hr => rowLine_rowOf _ (hpipe r (List.mem_cons_of_mem _ hr))

/-! ## The room for a pipe table -/

/-- Texts of so many units and more, each behind a separator. -/
theorem le_length_join {n : Nat} {ts : List Text} (h : ∀ u ∈ ts, n ≤ u.length) (separator t : Text) :
    t.length + ts.length * (separator.length + n) ≤ (Text.join separator (t :: ts)).length := by
  induction ts generalizing t with
  | nil =>
    rw [Text.join_singleton, List.length_nil]
    omega
  | cons u ts ih =>
    have hhead := h u List.mem_cons_self
    have hrest := ih (fun v hv => h v (List.mem_cons_of_mem u hv)) u
    rw [Text.join_cons_cons, List.length_append, List.length_append, List.length_cons, Nat.succ_mul]
    omega

theorem length_pipeLine (cells : List Text) :
    (pipeLine cells).length = 4 + (Text.join " | " cells).length := by
  rw [pipeLine, List.length_append, List.length_append]
  show 2 + _ + 2 = _
  omega

/-- Every cell of a line takes three units besides its text, and the line one more. -/
theorem le_length_pipeLine {n : Nat} {cells : List Text} (h : ∀ t ∈ cells, n ≤ t.length) :
    cells.length * (3 + n) + 1 ≤ (pipeLine cells).length := by
  rw [length_pipeLine]
  cases cells with
  | nil =>
    rw [List.length_nil]
    omega
  | cons t ts =>
    have hhead := h t List.mem_cons_self
    have hjoin := le_length_join (fun u hu => h u (List.mem_cons_of_mem t hu)) " | " t
    have hseparator : (Text.ofString " | ").length = 3 := rfl
    rw [hseparator] at hjoin
    rw [List.length_cons, Nat.succ_mul]
    omega

theorem length_fill {columns : Nat} {row : List Text} (h : row.length ≤ columns) :
    (fill columns row).length = columns := by
  simp [fill]
  omega

/-- A pipe table is never shorter than its frame. -/
theorem frameLength_le {rows : List (List Text)} (h : rows ≠ []) :
    frameLength rows.length (width rows) ≤ (pipeTable rows).length := by
  obtain ⟨header, rest, rfl⟩ := List.exists_cons_of_ne_nil h
  rw [pipeTable, frameLength]
  generalize hcolumns : width (header :: rest) = columns
  have hrow : ∀ row ∈ header :: rest, columns * 3 + 1 ≤ (pipeLine (fill columns row)).length := by
    intro row hrow
    have hle : (fill columns row).length * 3 + 1 ≤ (pipeLine (fill columns row)).length :=
      le_length_pipeLine fun t _ => Nat.zero_le t.length
    rwa [length_fill (hcolumns ▸ le_width hrow)] at hle
  have hdashes : columns * 6 + 1 ≤ (pipeLine (List.replicate columns "---")).length := by
    have hle := le_length_pipeLine fun t (ht : t ∈ List.replicate columns (Text.ofString "---")) =>
      show 3 ≤ t.length from (List.eq_of_mem_replicate ht).symm ▸ Nat.le_refl 3
    rwa [List.length_replicate] at hle
  have hhead := hrow header List.mem_cons_self
  have hrest : ∀ line ∈ rest.map fun row => pipeLine (fill columns row), columns * 3 + 1 ≤ line.length := by
    intro line hline
    obtain ⟨row, hmem, rfl⟩ := List.mem_map.mp hline
    exact hrow row (List.mem_cons_of_mem _ hmem)
  have hjoin := le_length_join hrest [0x0A] (pipeLine (List.replicate columns "---"))
  have hfeed : ([0x0A] : Text).length = 1 := rfl
  have hshape : 1 + (columns * 3 + 1) = 3 * columns + 2 := by omega
  rw [List.length_map, hfeed, hshape] at hjoin
  rw [Text.join_cons_cons, List.length_append, List.length_append, hfeed, List.length_cons, Nat.succ_mul]
  omega

/-- Where there is room for the pipe table, there is room for its frame. -/
theorem hasFrame_of_length {rows : List (List Text)} (h : (pipeTable rows).length ≤ lengthLimit) :
    frameLength rows.length (width rows) ≤ lengthLimit := by
  by_cases hrows : rows = []
  · subst hrows
    decide
  · exact Nat.le_trans (frameLength_le hrows) h

end Tabular

end LatexMarkdown
