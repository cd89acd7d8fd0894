import LatexMarkdown.Proofs.Making.Change
import LatexMarkdown.Proofs.Spans
import Mathlib.Algebra.GroupWithZero.Nat
/-!
  The columns of a table as its lines show them.

  A pipe behind an even number of backslashes separates cells (`Text.delimiterPipes`).  Every pipe in
  a cell gets a backslash in front, which hides it unless an odd number of backslashes stands before
  it already; then it is exposed (`Text.exposedPipes`).  Main statement: `delimiterPipes_tableLines`,
  a line of a table has one separating pipe more than the table has columns, and those that are
  exposed in its cells.
-/
namespace LatexMarkdown

open Markdown

/-! ## Pipes -/

namespace Text

/-- The pipes of a text behind a number of backslashes of one parity; `odd` is the parity of the
backslashes right before the text. -/
def pipesBehind (parity odd : Bool) : Text → Nat
  | [] => 0
  | u :: rest =>
    if u = 0x5C then pipesBehind parity (!odd) rest
    else (if u = 0x7C ∧ odd = parity then 1 else 0) + pipesBehind parity false rest

/-- The pipes that separate cells: those behind an even number of backslashes. -/
def delimiterPipes (t : Text) : Nat := pipesBehind false false t

/-- The pipes that one more backslash in front makes separate cells: those behind an odd number of
backslashes. -/
def exposedPipes (t : Text) : Nat := pipesBehind true false t

/-- A backslash in front of every pipe turns the parities round. -/
theorem pipesBehind_replaceEach (odd : Bool) (t : Text) :
    pipesBehind false odd (t.replaceEach (· == 0x7C) fun _ => "\\|") = pipesBehind true odd t := by
  induction t generalizing odd with
  | nil => rfl
  | cons u rest ih =>
    have hcons : replaceEach (· == 0x7C) (fun _ => "\\|") (u :: rest)
        = (if u == 0x7C then Text.ofString "\\|" else [u])
          ++ replaceEach (· == 0x7C) (fun _ => "\\|") rest := rfl
    rw [hcons]
    by_cases hpipe : u = 0x7C
    · subst hpipe
      -- The pipe has one backslash more before it than it had.
      show pipesBehind false odd
        (0x5C :: 0x7C :: replaceEach (· == 0x7C) (fun _ => "\\|") rest) = _
      rw [pipesBehind, if_pos rfl, pipesBehind, if_neg (by decide : ¬(0x7C : CodeUnit) = 0x5C), ih,
        pipesBehind, if_neg (by decide : ¬(0x7C : CodeUnit) = 0x5C)]
      cases odd <;> rfl
    · rw [if_neg (by simpa using hpipe), List.singleton_append, pipesBehind, pipesBehind, ih, ih]
      simp [hpipe]

/-- Behind a space no backslash counts. -/
theorem pipesBehind_append_space (parity odd : Bool) (s t : Text) :
    pipesBehind parity odd (s ++ 0x20 :: t)
      = pipesBehind parity odd s + pipesBehind parity false t := by
  induction s generalizing odd with
  | nil =>
    have hspace : pipesBehind parity odd (0x20 :: t) = 0 + pipesBehind parity false t := by
      rw [pipesBehind]
      rfl
    exact hspace
  | cons u rest ih =>
    rw [List.cons_append, pipesBehind, pipesBehind]
    split
    · exact ih _
    · rw [ih, Nat.add_assoc]

/-- Texts with separators between them and a space behind. -/
theorem delimiterPipes_join (t : Text) (ts : List Text) (rest : Text) :
    delimiterPipes (join " | " (t :: ts) ++ 0x20 :: rest)
      = ((t :: ts).map delimiterPipes).sum + ts.length + delimiterPipes rest := by
  induction ts generalizing t with
  | nil =>
    rw [join_singleton, delimiterPipes, pipesBehind_append_space]
    simp [delimiterPipes]
  | cons s ts ih =>
    have hsplit : join " | " (t :: s :: ts) ++ 0x20 :: rest
        = t ++ 0x20 :: ([0x7C] ++ 0x20 :: (join " | " (s :: ts) ++ 0x20 :: rest)) := by
      rw [join_cons_cons, List.append_assoc, List.append_assoc]
      rfl
    have hpipe : pipesBehind false false [0x7C] = 1 := rfl
    rw [hsplit, delimiterPipes, pipesBehind_append_space, pipesBehind_append_space, hpipe]
    have hrest := ih s
    rw [delimiterPipes] at hrest
    have hfirst : pipesBehind false false t = delimiterPipes t := rfl
    have hsum : ((t :: s :: ts).map delimiterPipes).sum
        = delimiterPipes t + ((s :: ts).map delimiterPipes).sum := rfl
    rw [hrest, hsum, List.length_cons, hfirst]
    omega

end Text

/-! ## Lines -/

/-- The pipes that are exposed in the cells of a row. -/
def TableRow.exposedPipes (r : TableRow) : Nat :=
  (r.cells.map fun c => (oneLine c.children).exposedPipes).sum

theorem TableRow.length_le_columnCount {rows : List TableRow} {r : TableRow} (h : r ∈ rows) :
    r.cells.length ≤ columnCount rows := by
  have hmax : ∀ (l : List TableRow) (n : Nat),
      n ≤ l.foldl (fun n r => max n r.cells.length) n ∧
        ∀ r ∈ l, r.cells.length ≤ l.foldl (fun n r => max n r.cells.length) n := by
    intro l
    induction l with
    | nil => simp
    | cons s l ih =>
      intro n
      obtain ⟨hle, hall⟩ := ih (max n s.cells.length)
      rw [List.foldl_cons]
      refine ⟨by omega, fun r hr => ?_⟩
      rcases List.mem_cons.mp hr with rfl | hr
      · omega
      · exact hall r hr
  exact (hmax rows 0).2 r h

namespace Markdown

open Text (delimiterPipes)

theorem delimiterPipes_cellText (c : TableCell) :
    delimiterPipes (cellText c) = (oneLine c.children).exposedPipes :=
  Text.pipesBehind_replaceEach false _

/-- A row shows a pipe on either side of each cell, and those that are exposed. -/
theorem delimiterPipes_rowLine {columns : Nat} {r : TableRow} (hle : r.cells.length ≤ columns)
    (hpos : 0 < columns) : delimiterPipes (rowLine columns r) = columns + 1 + r.exposedPipes := by
  generalize hcells : r.cells.map cellText
    ++ List.replicate (columns - (r.cells.map cellText).length) [] = cells
  have hlength : cells.length = columns := by
    rw [← hcells, List.length_append, List.length_map, List.length_replicate]
    omega
  -- The cells that fill the row up show nothing.
  have hsum : (cells.map delimiterPipes).sum = r.exposedPipes := by
    have hempty : ∀ n, ((List.replicate n ([] : Text)).map delimiterPipes).sum = 0 := by
      intro n
      induction n with
      | zero => rfl
      | succ n ih => rw [List.replicate_succ, List.map_cons, List.sum_cons, ih]; rfl
    rw [← hcells, List.map_append, List.sum_append, hempty, Nat.add_zero, List.map_map,
      TableRow.exposedPipes]
    exact congrArg List.sum (List.map_congr_left fun c _ => delimiterPipes_cellText c)
  obtain ⟨t, ts, rfl⟩ := List.exists_cons_of_length_pos (hlength ▸ hpos)
  have hline : rowLine columns r = [0x7C] ++ 0x20 :: (Text.join " | " (t :: ts) ++ 0x20 :: [0x7C]) := by
    rw [rowLine, hcells, List.append_assoc]
    rfl
  have hpipe : delimiterPipes [0x7C] = 1 := rfl
  have hjoin := Text.delimiterPipes_join t ts [0x7C]
  rw [hsum, hpipe] at hjoin
  have hsplit := Text.pipesBehind_append_space false false [0x7C]
    (Text.join " | " (t :: ts) ++ 0x20 :: [0x7C])
  rw [← hline] at hsplit
  rw [List.length_cons] at hlength
  simp only [delimiterPipes] at hpipe hjoin ⊢
  omega

/-- The line below the first row shows one pipe more than there are columns. -/
theorem delimiterPipes_separatorLine (columns : Nat) :
    delimiterPipes (separatorLine columns) = columns + 1 := by
  have hcell : Text.ofString " --- |" = [0x20, 0x2D, 0x2D, 0x2D, 0x20, 0x7C] := by decide
  have hcell_append : ∀ t : Text, Text.pipesBehind false false (Text.ofString " --- |" ++ t)
      = 1 + Text.pipesBehind false false t := by
    intro t
    rw [hcell]
    simp [Text.pipesBehind]
  have hcells : ∀ n : Nat, Text.pipesBehind false false
      (Text.join [] (List.replicate n (Text.ofString " --- |"))) = n := by
    intro n
    induction n with
    | zero => rfl
    | succ n ih =>
      have hjoin : Text.join [] (List.replicate (n + 1) (Text.ofString " --- |"))
          = Text.ofString " --- |" ++ Text.join [] (List.replicate n (Text.ofString " --- |")) := by
        cases n with
        | zero => simp [Text.join]
        | succ n =>
          rw [List.replicate_succ, List.replicate_succ, Text.join_cons_cons, List.nil_append]
      rw [hjoin, hcell_append, ih, Nat.add_comm]
  have hbegin : ∀ t : Text, delimiterPipes (Text.ofString "|" ++ t)
      = 1 + Text.pipesBehind false false t := fun _ => rfl
  rw [separatorLine, hbegin, hcells, Nat.add_comm]

/-- The separating pipes of a table's lines, where some row has a cell. -/
theorem delimiterPipes_tableLines {first : TableRow} (hcells : first.cells ≠ [])
    (rest : List TableRow) :
    (tableLines (first :: rest)).map delimiterPipes
      = (TableRow.columnCount (first :: rest) + 1 + first.exposedPipes) ::
        (TableRow.columnCount (first :: rest) + 1) ::
        rest.map (TableRow.columnCount (first :: rest) + 1 + ·.exposedPipes) := by
  have hle : ∀ r ∈ first :: rest, r.cells.length ≤ TableRow.columnCount (first :: rest) :=
    fun r => TableRow.length_le_columnCount
  have hpos : 0 < TableRow.columnCount (first :: rest) :=
    Nat.lt_of_lt_of_le (List.length_pos_iff.mpr hcells) (hle first List.mem_cons_self)
  simp only [tableLines, List.map_cons, List.map_map, delimiterPipes_separatorLine]
  rw [delimiterPipes_rowLine (hle first List.mem_cons_self) hpos]
  refine congrArg (fun l => _ :: _ :: l) (List.map_congr_left fun r hr => ?_)
  exact delimiterPipes_rowLine (hle r (List.mem_cons_of_mem _ hr)) hpos

end Markdown

/-! ## Documents -/

variable {source : Text} {options : Options} {parsed : Parsed}

/-- In a document that is read, every line of a table has one separating pipe more than the table has
columns, and those that are exposed in its cells; so all of them show the same columns only where
nothing is exposed. -/
theorem delimiterPipes_table (h : parseDocument source options = .ok parsed) {i : NodeInfo}
    {first : TableRow} {rest : List TableRow}
    (hmem : .block (.table i (first :: rest)) ∈ (Node.document parsed.document).tree.preorder)
    (icon : Text) (depth : Nat) :
    (blockLines icon depth (.table i (first :: rest))).map Text.delimiterPipes
      = (TableRow.columnCount (first :: rest) + 1 + first.exposedPipes) ::
        (TableRow.columnCount (first :: rest) + 1) ::
        rest.map (TableRow.columnCount (first :: rest) + 1 + ·.exposedPipes) ∧
    ((∀ line ∈ blockLines icon depth (.table i (first :: rest)),
        line.delimiterPipes = TableRow.columnCount (first :: rest) + 1) ↔
      ∀ r ∈ first :: rest, ∀ c ∈ r.cells, (oneLine c.children).exposedPipes = 0) := by
  obtain ⟨settings, -, hmade⟩ := allMade_of_parseDocument h
  -- A row is kept for a cell that has content.
  have hrow : Node.tableRow first ∈ (Node.block (.table i (first :: rest))).children :=
    List.mem_map_of_mem List.mem_cons_self
  obtain ⟨c, hc, -⟩ := ((hmade.of_mem hmem).children _ hrow).made
  have hlines := delimiterPipes_tableLines (List.ne_nil_of_mem hc) rest
  refine ⟨hlines, ?_⟩
  have hexposed : ∀ r : TableRow, r.exposedPipes = 0 ↔
      ∀ c ∈ r.cells, (oneLine c.children).exposedPipes = 0 := by
    intro r
    rw [TableRow.exposedPipes, List.sum_eq_zero_iff_forall_eq_nat]
    simp
  have hall : ∀ lines : List Text, (∀ line ∈ lines,
      line.delimiterPipes = TableRow.columnCount (first :: rest) + 1) ↔
      ∀ n ∈ lines.map Text.delimiterPipes, n = TableRow.columnCount (first :: rest) + 1 := by
    simp
  rw [hall, blockLines, hlines]
  simp [hexposed]

/-- A source that is read as one table, with what is asked of the table's rows. -/
theorem exists_table_of_parse {α : Type} (source : Text) (f : TableRow → List TableRow → α) {a : α}
    (h : (Document.parse {} source).map (fun p =>
      match p.document.children with
      | [.table _ (first :: rest)] => some (f first rest)
      | _ => none) = .ok (some a)) :
    ∃ parsed i first rest, parseDocument source {} = .ok parsed ∧
      .block (.table i (first :: rest)) ∈ (Node.document parsed.document).tree.preorder ∧
      f first rest = a := by
  have hresolve : ({} : Options).resolve = .ok {} := rfl
  obtain ⟨parsed, hparsed, hask⟩ := exists_of_parse_map hresolve h
  split at hask
  · next i first rest hchildren =>
    have hmem : Block.table i (first :: rest) ∈ parsed.document.children := by
      rw [hchildren]
      exact List.mem_singleton.mpr rfl
    exact ⟨parsed, i, first, rest, hparsed, Document.block_mem_preorder hmem,
      Option.some.inj hask⟩
  · cases hask

/-- Two rows, of which the first has a pipe in a cell and the second lacks a cell. -/
theorem delimiterPipes_table_sample :
    let source : Text := "\\begin\x7btabular\x7d\x7bcc\x7da|b&c\\\\d\\end\x7btabular\x7d"
    ∃ parsed i first rest, parseDocument source {} = .ok parsed ∧
      .block (.table i (first :: rest)) ∈ (Node.document parsed.document).tree.preorder ∧
      (first.cells.length, rest.map (·.cells.length)) = (2, [1]) ∧
      ∀ icon depth,
        (blockLines icon depth (.table i (first :: rest))).map Text.delimiterPipes
          = (TableRow.columnCount (first :: rest) + 1 + first.exposedPipes) ::
            (TableRow.columnCount (first :: rest) + 1) ::
            rest.map (TableRow.columnCount (first :: rest) + 1 + ·.exposedPipes) ∧
        ((∀ line ∈ blockLines icon depth (.table i (first :: rest)),
            line.delimiterPipes = TableRow.columnCount (first :: rest) + 1) ↔
          ∀ r ∈ first :: rest, ∀ c ∈ r.cells, (oneLine c.children).exposedPipes = 0) := by
  intro source
  obtain ⟨parsed, i, first, rest, h, hmem, hcells⟩ := exists_table_of_parse source
    (fun first rest => (first.cells.length, rest.map (·.cells.length))) (a := (2, [1]))
    (by decide +kernel)
  exact ⟨parsed, i, first, rest, h, hmem, hcells, fun icon depth =>
    delimiterPipes_table h hmem icon depth⟩

/-- A norm in a table cell; each of its bars is spelled with a backslash. -/
def normCell : Text := "\\begin\x7btabular\x7d\x7bc\x7d$\\|x\\|$\\end\x7btabular\x7d"

/-- Cell content can change the columns that a line of a table shows. -/
theorem not_forall_delimiterPipes :
    ¬ ∀ (source : Text) (options : Options) (parsed : Parsed) (i : NodeInfo) (first : TableRow)
        (rest : List TableRow) (icon : Text) (depth : Nat),
      parseDocument source options = .ok parsed →
      .block (.table i (first :: rest)) ∈ (Node.document parsed.document).tree.preorder →
      ∀ line ∈ blockLines icon depth (.table i (first :: rest)),
        line.delimiterPipes = TableRow.columnCount (first :: rest) + 1 := by
  intro hall
  -- Both bars of the only cell are exposed, so its line shows four pipes where two are due.
  obtain ⟨parsed, i, first, rest, h, hmem, hlines⟩ := exists_table_of_parse normCell
    (fun first rest => (TableRow.columnCount (first :: rest),
      (tableLines (first :: rest)).map Text.delimiterPipes)) (a := (1, [4, 2]))
    (by decide +kernel)
  obtain ⟨hcolumns, hpipes⟩ := Prod.mk.inj hlines
  have hline := hall normCell {} parsed i first rest [] 0 h hmem
  rw [hcolumns, blockLines] at hline
  have hfour : 4 ∈ (tableLines (first :: rest)).map Text.delimiterPipes := by
    rw [hpipes]
    exact List.mem_cons_self
  obtain ⟨line, hmem, hcount⟩ := List.mem_map.mp hfour
  rw [hline line hmem] at hcount
  cases hcount

end LatexMarkdown
