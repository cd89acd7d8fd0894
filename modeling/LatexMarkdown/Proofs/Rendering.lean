import LatexMarkdown.Markdown
import LatexMarkdown.Proofs.Embedding.Content
import Mathlib.Data.List.TakeWhile
/-!
  Blocks as lines.

  The lines of blocks do not depend on offsets (`blocksLines_map`), and those of two runs of blocks
  are the lines of the first and then those of the second (`blocksLines_append`).  Blocks that show
  something are written as nothing only where they have no lines at all, so a text is the outputs of
  its parts, one below the other (`join_blocksLines_append`).  Whether there is room for blocks does not
  depend on offsets either, and there is room for two runs if there is for each.
-/
namespace LatexMarkdown.Markdown

/-! ## Offsets -/

section

variable {P Q : Type} (f : P → Q)

@[simp] theorem isMath_mapOffsets (n : Inline P) : isMath (n.mapOffsets f) = isMath n := by
  cases n <;> simp [Inline.mapOffsets, isMath]

mutual

@[simp] theorem spanText_mapOffsets (hardBreak : Text) (afterMath : Bool) : ∀ n : Inline P,
    spanText hardBreak afterMath (n.mapOffsets f) = spanText hardBreak afterMath n
  | .text _ _ | .code _ _ | .math _ _ | .hardBreak _ => by simp [Inline.mapOffsets, spanText]
  | .emphasis _ cs => by simp [Inline.mapOffsets, spanText, inlineText_mapAllOffsets hardBreak false cs]
  | .strong _ cs => by simp [Inline.mapOffsets, spanText, inlineText_mapAllOffsets hardBreak false cs]
  | .link _ _ cs => by simp [Inline.mapOffsets, spanText, inlineText_mapAllOffsets hardBreak false cs]

@[simp] theorem inlineText_mapAllOffsets (hardBreak : Text) (afterMath : Bool) :
    ∀ ns : List (Inline P),
      inlineText hardBreak afterMath (Inline.mapAllOffsets f ns) = inlineText hardBreak afterMath ns
  | [] => rfl
  | n :: rest => by
    rw [Inline.mapAllOffsets, inlineText, inlineText, spanText_mapOffsets hardBreak afterMath n,
      isMath_mapOffsets, inlineText_mapAllOffsets hardBreak (isMath n) rest]

end

theorem rowLine_mapOffsets (columns : Nat) (r : TableRow P) :
    rowLine columns (r.mapOffsets f) = rowLine columns r := by
  have hcell : ∀ c : TableCell P, cellText (c.mapOffsets f) = cellText c := by
    intro c
    simp [cellText, oneLine, TableCell.mapOffsets]
  simp [rowLine, TableRow.mapOffsets, Function.comp_def, hcell]

theorem tableLines_map (rows : List (TableRow P)) :
    tableLines (rows.map (TableRow.mapOffsets f)) = tableLines rows := by
  have hcount := TableRow.columnCount_map f rows
  cases rows with
  | nil => rfl
  | cons first rest =>
    rw [List.map_cons] at hcount ⊢
    simp [tableLines, hcount, rowLine_mapOffsets, Function.comp_def]

/-- In a list item every block but a list is indented. -/
theorem nestedLines_cons (icon : Text) (depth : Nat) {b : Block P}
    (h : ∀ i ordered items, b ≠ .list i ordered items) (rest : List (Block P)) :
    nestedLines icon depth (b :: rest)
      = (blockLines icon depth b).map (indentLine depth) ++ nestedLines icon depth rest := by
  rw [nestedLines]
  exact h

mutual

@[simp] theorem blockLines_mapOffsets (icon : Text) (depth : Nat) : ∀ b : Block P,
    blockLines icon depth (b.mapOffsets f) = blockLines icon depth b
  | .paragraph _ cs => by simp [Block.mapOffsets, blockLines, inlineLines]
  | .heading _ _ cs => by simp [Block.mapOffsets, blockLines, oneLine]
  | .quote _ bs => by simp [Block.mapOffsets, blockLines, blocksLines_mapAllOffsets icon 0 bs]
  | .list _ ordered items => by
    simp [Block.mapOffsets, blockLines, itemsLines_mapAllOffsets icon depth ordered 0 items]
  | .code _ _ _ | .math _ _ _ => by simp [Block.mapOffsets, blockLines]
  | .table _ rows => by simp [Block.mapOffsets, blockLines, tableLines_map]

theorem blocksLines_mapAllOffsets (icon : Text) (depth : Nat) : ∀ bs : List (Block P),
    blocksLines icon depth (Block.mapAllOffsets f bs) = blocksLines icon depth bs
  | [] => by rw [Block.mapAllOffsets, blocksLines, blocksLines]
  | b :: rest => by
    rw [Block.mapAllOffsets, blocksLines, blocksLines, blockLines_mapOffsets icon depth b,
      blocksLines_mapAllOffsets icon depth rest]

theorem itemsLines_mapAllOffsets (icon : Text) (depth : Nat) (ordered : Bool) (index : Nat) :
    ∀ items : List (ListItem P),
      itemsLines icon depth ordered index (ListItem.mapAllOffsets f items)
        = itemsLines icon depth ordered index items
  | [] => by rw [ListItem.mapAllOffsets, itemsLines, itemsLines]
  | ⟨_, children, blocks⟩ :: rest => by
    rw [ListItem.mapAllOffsets, ListItem.mapOffsets, itemsLines, itemsLines,
      nestedLines_mapAllOffsets icon depth blocks,
      itemsLines_mapAllOffsets icon depth ordered (index + 1) rest]
    simp [inlineLines]

theorem nestedLines_mapAllOffsets (icon : Text) (depth : Nat) : ∀ bs : List (Block P),
    nestedLines icon depth (Block.mapAllOffsets f bs) = nestedLines icon depth bs
  | [] => by rw [Block.mapAllOffsets, nestedLines, nestedLines]
  | b :: rest => by
    have hb := blockLines_mapOffsets icon depth b
    have hrest := nestedLines_mapAllOffsets icon depth rest
    rw [Block.mapAllOffsets]
    cases b with
    | list i ordered items =>
      have hitems := itemsLines_mapAllOffsets icon (depth + 1) ordered 0 items
      rw [Block.mapOffsets, nestedLines, nestedLines, hitems, hrest]
    | _ =>
      rw [nestedLines_cons _ _ (by simp [Block.mapOffsets]), nestedLines_cons _ _ (by simp), hb, hrest]

end

theorem blocksLines_map (icon : Text) (depth : Nat) (bs : List (Block P)) :
    blocksLines icon depth (bs.map (Block.mapOffsets f)) = blocksLines icon depth bs := by
  rw [← Block.mapAllOffsets_eq_map, blocksLines_mapAllOffsets]

mutual

theorem extents_mapOffsets : ∀ b : Block P, (b.mapOffsets f).extents = b.extents
  | .paragraph _ _ | .heading _ _ _ | .code _ _ _ | .math _ _ _ => rfl
  | .table _ rows => by simp [Block.mapOffsets, Block.extents]
  | .quote _ bs => by rw [Block.mapOffsets, Block.extents, Block.extents, allExtents_mapAllOffsets bs]
  | .list _ _ items => by
    rw [Block.mapOffsets, Block.extents, Block.extents, itemExtents_mapAllOffsets items]

theorem allExtents_mapAllOffsets : ∀ bs : List (Block P),
    Block.allExtents (Block.mapAllOffsets f bs) = Block.allExtents bs
  | [] => rfl
  | b :: rest => by
    rw [Block.mapAllOffsets, Block.allExtents, Block.allExtents, extents_mapOffsets b,
      allExtents_mapAllOffsets rest]

theorem itemExtents_mapAllOffsets : ∀ items : List (ListItem P),
    ListItem.allExtents (ListItem.mapAllOffsets f items) = ListItem.allExtents items
  | [] => rfl
  | ⟨_, _, bs⟩ :: rest => by
    rw [ListItem.mapAllOffsets, ListItem.mapOffsets, ListItem.allExtents, ListItem.allExtents,
      allExtents_mapAllOffsets bs, itemExtents_mapAllOffsets rest]

end

theorem sizeError?_map (bs : List (Block P)) :
    sizeError? (bs.map (Block.mapOffsets f)) = sizeError? bs := by
  rw [sizeError?, sizeError?, ← Block.mapAllOffsets_eq_map, allExtents_mapAllOffsets]

end

/-! ## One below the other -/

variable {P : Type}

theorem blocksLines_append (icon : Text) (depth : Nat) (bs cs : List (Block P)) :
    blocksLines icon depth (bs ++ cs)
      = blocksLines icon depth bs ++ blocksLines icon depth cs := by
  induction bs with
  | nil => rw [blocksLines, List.nil_append, List.nil_append]
  | cons b rest ih => rw [List.cons_append, blocksLines, blocksLines, ih, List.append_assoc]

theorem allExtents_append (bs cs : List (Block P)) :
    Block.allExtents (bs ++ cs) = Block.allExtents bs ++ Block.allExtents cs := by
  induction bs with
  | nil => rfl
  | cons b rest ih =>
    rw [List.cons_append, Block.allExtents, Block.allExtents, ih, List.append_assoc]

/-- Two outputs, one below the other; an empty one adds nothing. -/
def stack (s t : Text) : Text := if s = [] then t else if t = [] then s else s ++ 0x0A :: t

theorem join_cons (separator first : Text) {rest : List Text} (h : rest ≠ []) :
    Text.join separator (first :: rest) = first ++ separator ++ Text.join separator rest := by
  obtain ⟨second, rest, rfl⟩ := List.exists_cons_of_ne_nil h
  simp [Text.join, List.intercalate]

/-- Only the empty line makes no output. -/
theorem join_ne_nil {lines : List Text} (hne : lines ≠ []) (hempty : lines ≠ [[]]) :
    Text.join [0x0A] lines ≠ [] := by
  cases lines with
  | nil => exact absurd rfl hne
  | cons first rest =>
    cases rest with
    | nil => simpa [Text.join, List.intercalate] using hempty
    | cons second rest => simp [join_cons]

theorem join_append {ls ms : List Text} (hl : ls ≠ [[]]) (hm : ms ≠ [[]]) :
    Text.join [0x0A] (ls ++ ms) = stack (Text.join [0x0A] ls) (Text.join [0x0A] ms) := by
  by_cases hls : ls = []
  · subst hls
    rfl
  by_cases hms : ms = []
  · subst hms
    rw [stack, if_neg (join_ne_nil hls hl), List.append_nil]
    rfl
  rw [stack, if_neg (join_ne_nil hls hl), if_neg (join_ne_nil hms hm)]
  clear hl hm
  induction ls with
  | nil => exact absurd rfl hls
  | cons first rest ih =>
    by_cases hrest : rest = []
    · subst hrest
      rw [List.singleton_append, join_cons _ _ hms]
      simp [Text.join, List.intercalate]
    · rw [List.cons_append, join_cons _ _ (by simp [hms]), join_cons _ _ hrest, ih hrest]
      simp

/-! ## Blocks that show something -/

/-- A paragraph begins with something that shows; any other block has its marks. -/
def Shown : Block P → Prop
  | .paragraph _ cs => ∃ n rest, cs = n :: rest ∧ n.isHardBreak = false ∧ n.isEmptyText = false
  | _ => True

theorem spanText_ne_nil {n : Inline P} (hb : n.isHardBreak = false) (he : n.isEmptyText = false)
    (hardBreak : Text) (afterMath : Bool) : spanText hardBreak afterMath n ≠ [] := by
  cases n with
  | text i t => simpa [spanText, Inline.isEmptyText] using he
  | code i t =>
    rw [spanText, codeSpan]
    split <;> simp [backticks]
  | hardBreak i => exact absurd hb (by simp [Inline.isHardBreak])
  | strong i cs | emphasis i cs | link i destination cs | math i t =>
    rw [spanText]
    exact List.append_ne_nil_of_right_ne_nil _ (by decide)

/-- Lines of which one shows something are not the empty line. -/
theorem ne_of_head_ne_nil {line : Text} {lines : List Text} (h : line ≠ []) :
    line :: lines ≠ [[]] := by
  simp [h]

theorem splitOn_ne {t : Text} (h : t ≠ []) : t.splitOn 0x0A ≠ [[]] := by
  intro hlines
  have hjoin := Text.join_splitOn 0x0A t
  rw [hlines] at hjoin
  exact h hjoin.symm

theorem trimEnd_ne_nil {t : Text} {u : CodeUnit} (hu : u ∈ t)
    (hspace : u.isUnicodeSpace = false) : t.trimEnd ≠ [] := by
  intro hnil
  rw [Text.trimEnd, List.reverse_eq_nil_iff, List.dropWhile_eq_nil_iff] at hnil
  rw [hnil u (List.mem_reverse.mpr hu)] at hspace
  cases hspace

/-- The mark of a list item is no space. -/
theorem exists_mem_itemMark (ordered : Bool) (index : Nat) :
    ∃ u ∈ itemMark ordered index, u.isUnicodeSpace = false := by
  cases ordered with
  | false =>
    have hmark : (0x2D : CodeUnit) ∈ Text.ofString "- " := by decide
    exact ⟨0x2D, hmark, by decide⟩
  | true =>
    have hmark : (0x2E : CodeUnit) ∈ Text.ofString ". " := by decide
    exact ⟨0x2E, List.mem_append_right _ hmark, by decide⟩

theorem quoteLine_ne_nil (line : Text) : quoteLine line ≠ [] := by
  unfold quoteLine
  split
  · decide
  · exact List.append_ne_nil_of_left_ne_nil (by decide) _

theorem itemsLines_ne (icon : Text) (depth : Nat) (ordered : Bool) (index : Nat)
    (items : List (ListItem P)) : itemsLines icon depth ordered index items ≠ [[]] := by
  cases items with
  | nil => simp [itemsLines]
  | cons item rest =>
    obtain ⟨i, children, blocks⟩ := item
    obtain ⟨first, more, hlines⟩ := List.exists_cons_of_ne_nil (Text.splitOn_ne_nil 0x0A
      (inlineText [0x0A] false children))
    obtain ⟨u, hu, hspace⟩ := exists_mem_itemMark ordered index
    rw [itemsLines, inlineLines, hlines, itemLines, List.cons_append, List.cons_append]
    apply ne_of_head_ne_nil
    -- The mark is on the first line.
    refine trimEnd_ne_nil (List.mem_append_left _ (List.mem_append_right _ hu)) hspace

/-- A block that shows something is not written as an empty line. -/
theorem Shown.blockLines_ne {b : Block P} (h : Shown b) (icon : Text) (depth : Nat) :
    blockLines icon depth b ≠ [[]] := by
  cases b with
  | paragraph i cs =>
    obtain ⟨n, rest, rfl, hb, he⟩ := h
    rw [blockLines, inlineLines]
    apply splitOn_ne
    rw [inlineText]
    exact List.append_ne_nil_of_left_ne_nil (spanText_ne_nil hb he _ _) _
  | heading i level cs =>
    rw [blockLines]
    apply ne_of_head_ne_nil
    simp [headingMark]
  | quote i bs =>
    rw [blockLines]
    unfold quoteLines
    split
    · exact ne_of_head_ne_nil (quoteLine_ne_nil icon)
    · exact ne_of_head_ne_nil (quoteLine_ne_nil _)
  | list i ordered items =>
    rw [blockLines]
    exact itemsLines_ne icon depth ordered 0 items
  | code i code language =>
    simp [blockLines, codeBlockLines]
  | table i rows =>
    rw [blockLines]
    cases rows with
    | nil => simp [tableLines]
    | cons first rest => simp [tableLines]
  | math i math environment =>
    rw [blockLines]
    apply splitOn_ne
    unfold mathBlockText
    split
    · exact List.append_ne_nil_of_right_ne_nil _ (by decide)
    · exact List.append_ne_nil_of_right_ne_nil _ (by decide)

/-- The lines of blocks that show something are not the empty line. -/
theorem blocksLines_ne {bs : List (Block P)} (h : ∀ b ∈ bs, Shown b) (icon : Text) (depth : Nat) :
    blocksLines icon depth bs ≠ [[]] := by
  induction bs with
  | nil => simp [blocksLines]
  | cons b rest ih =>
    have hb := (h b List.mem_cons_self).blockLines_ne icon depth
    have hrest := ih fun b hb => h b (List.mem_cons_of_mem _ hb)
    rw [blocksLines]
    intro hlines
    -- One of the two parts is that line.
    rcases List.append_eq_singleton_iff.mp hlines with ⟨_, hrest'⟩ | ⟨hb', _⟩
    · exact hrest hrest'
    · exact hb hb'

/-- The output of two runs of blocks is the output of the one above the output of the other. -/
theorem join_blocksLines_append {bs cs : List (Block P)} (hb : ∀ b ∈ bs, Shown b)
    (hc : ∀ b ∈ cs, Shown b) (icon : Text) (depth : Nat) :
    Text.join [0x0A] (blocksLines icon depth (bs ++ cs))
      = stack (Text.join [0x0A] (blocksLines icon depth bs))
          (Text.join [0x0A] (blocksLines icon depth cs)) := by
  rw [blocksLines_append]
  exact join_append (blocksLines_ne hb icon depth) (blocksLines_ne hc icon depth)

/-! ## Room -/

/-- There is room for blocks where there is room for each heading and table in them. -/
theorem sizeError?_eq_none_iff {bs : List (Block P)} :
    sizeError? bs = none ↔ ∀ e ∈ Block.allExtents bs, hasLines e = true ∧ hasFrame e = true := by
  simp only [sizeError?, Option.map_eq_none_iff, Option.orElse_eq_orElse, Option.orElse_eq_or,
    Option.or_eq_none_iff, List.find?_eq_none, Bool.not_eq_true', Bool.not_eq_false]
  exact forall₂_and.symm

theorem sizeError?_append {bs cs : List (Block P)} (hb : sizeError? bs = none)
    (hc : sizeError? cs = none) : sizeError? (bs ++ cs) = none := by
  rw [sizeError?_eq_none_iff] at hb hc ⊢
  rw [allExtents_append]
  exact fun e he => (List.mem_append.mp he).elim (hb e) (hc e)

/-- There is room for a table if there is for its frame, which is never shorter than its separator. -/
theorem sizeError?_table (i : NodeInfo P) (rows : List (TableRow P)) :
    sizeError? [.table i rows] =
      if frameLength rows.length (TableRow.columnCount rows) ≤ lengthLimit then none
      else some ⟨.table rows.length (TableRow.columnCount rows)⟩ := by
  have hextents : Block.allExtents [.table i rows]
      = [.table rows.length (TableRow.columnCount rows)] := rfl
  rw [sizeError?, hextents]
  generalize rows.length = n, TableRow.columnCount rows = columns
  by_cases hfits : frameLength n columns ≤ lengthLimit
  · have hlines : hasLines (.table n columns) = true :=
      decide_eq_true (Nat.le_trans (Nat.le_add_left _ _) hfits)
    have hframe : hasFrame (.table n columns) = true := decide_eq_true hfits
    simp [hlines, hframe, hfits]
  · have hframe : hasFrame (.table n columns) = false := decide_eq_false hfits
    cases hlines : hasLines (.table n columns) <;> simp [hlines, hframe, hfits]

end LatexMarkdown.Markdown
