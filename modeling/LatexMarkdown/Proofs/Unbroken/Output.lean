import LatexMarkdown.Proofs.Making
import LatexMarkdown.Proofs.Rendering
import Mathlib.Data.List.Forall2
/-!
  Where the lines of a block stand.

  A block in a quote or a list item is written as it is anywhere, with marks in front of its lines
  (`Marked`); no line is added between them and none is lost.  Main statement: `stands_blocksLines`,
  the lines of a block stand together among the lines of the blocks that it is in.
-/
namespace LatexMarkdown

variable {P : Type}

/-! ## Nodes without blocks -/

/-- Is the node one that no block can be in? -/
def Node.isBlockless : Node P → Bool
  | .inline _ | .tableRow _ | .tableCell _ => true
  | _ => false

theorem Node.not_mem_of_isBlockless {n : Node P} (h : n.isBlockless = true) (b : Block P) :
    .block b ∉ n.tree.preorder := by
  intro hmem
  have hblock := forall_preorder (p := fun m => m.isBlockless = true) ?_ h _ hmem
  · exact absurd hblock (by simp [isBlockless])
  · intro m hm c hc
    cases m with
    | inline k | tableRow k | tableCell k =>
      obtain ⟨_, _, rfl⟩ := List.mem_map.mp hc
      rfl
    | _ => cases hm

namespace Markdown

/-! ## Marked lines -/

/-- Lines with marks in front of them. -/
def Marked (marked lines : List Text) : Prop := List.Forall₂ (fun m l => l <:+ m) marked lines

namespace Marked

variable {marked lines : List Text}

theorem refl (lines : List Text) : Marked lines lines :=
  List.forall₂_same.mpr fun l _ => List.suffix_refl l

theorem trans {ls : List Text} (h : Marked marked lines) (h' : Marked lines ls) :
    Marked marked ls := by
  induction h generalizing ls with
  | nil => exact h'
  | cons hm _ ih =>
    obtain ⟨l, ls, hl, hls, rfl⟩ := List.forall₂_cons_left_iff.mp h'
    exact .cons (hl.trans hm) (ih hls)

theorem map {f : Text → Text} (hf : ∀ l, l <:+ f l) (lines : List Text) :
    Marked (lines.map f) lines :=
  List.forall₂_map_left_iff.mpr (List.forall₂_same.mpr fun l _ => hf l)

theorem of_infix {ls : List Text} (h : Marked marked lines) (hls : ls <:+: lines) :
    ∃ ms, Marked ms ls ∧ ms <:+: marked := by
  -- What is marked is cut at the same places.
  obtain ⟨before, after, rfl⟩ := hls
  have hfront := List.forall₂_take_append _ _ _ h
  refine ⟨_, List.forall₂_drop_append _ _ _ hfront, ?_⟩
  exact (List.drop_suffix _ _).isInfix.trans (List.take_prefix _ _).isInfix

end Marked

theorem suffix_indentLine (depth : Nat) (line : Text) : line <:+ indentLine depth line := by
  unfold indentLine
  split
  · next hline => exact hline ▸ List.suffix_refl _
  · exact List.suffix_append _ _

theorem suffix_quoteLine (line : Text) : line <:+ quoteLine line := by
  unfold quoteLine
  split
  · next hline => exact hline ▸ List.nil_suffix
  · exact List.suffix_append _ _

/-- A quote of no lines has one, which is the icon's. -/
theorem marked_quoteLines (icon : Text) {lines : List Text} (hne : lines ≠ []) :
    Marked (quoteLines icon lines) lines := by
  obtain ⟨first, rest, rfl⟩ := List.exists_cons_of_ne_nil hne
  have hfirst : first <:+ if icon = [] then first else if first = [] then icon
      else icon ++ " " ++ first := by
    split
    · exact List.suffix_refl _
    split
    · next hnil => exact hnil ▸ List.nil_suffix
    · exact List.suffix_append _ _
  exact .cons (hfirst.trans (suffix_quoteLine _)) (Marked.map suffix_quoteLine rest)

/-! ## Blocks in blocks -/

/-- The lines of a block stand together among other lines, with marks in front. -/
def Stands (icon : Text) (b : Block P) (lines : List Text) : Prop :=
  ∃ depth ls, Marked ls (blockLines icon depth b) ∧ ls <:+: lines

namespace Stands

variable {icon : Text} {b c : Block P} {lines lines' : List Text}

theorem self (icon : Text) (depth : Nat) (b : Block P) : Stands icon b (blockLines icon depth b) :=
  ⟨depth, _, .refl _, List.infix_rfl⟩

theorem mono (h : Stands icon b lines) (hl : lines <:+: lines') : Stands icon b lines' := by
  obtain ⟨depth, ls, hmarked, hls⟩ := h
  exact ⟨depth, ls, hmarked, hls.trans hl⟩

theorem marked (h : Stands icon b lines) (hm : Marked lines' lines) : Stands icon b lines' := by
  obtain ⟨depth, ls, hmarked, hls⟩ := h
  obtain ⟨ms, hms, hinfix⟩ := hm.of_infix hls
  exact ⟨depth, ms, hms.trans hmarked, hinfix⟩

theorem quoteLines (h : Stands icon b lines) : Stands icon b (quoteLines icon lines) := by
  by_cases hne : lines = []
  · exact h.mono (hne ▸ List.nil_infix)
  · exact h.marked (marked_quoteLines icon hne)

/-- A block is the block that it is looked for in, or below it. -/
theorem of_mem {depth : Nat} (h : .block b ∈ (Node.block c).tree.preorder)
    (hbelow : (∃ n ∈ (Node.block c).children, .block b ∈ n.tree.preorder) →
      Stands icon b (blockLines icon depth c)) : Stands icon b (blockLines icon depth c) := by
  rcases Node.mem_preorder_tree.mp h with heq | hchild
  · cases heq
    exact self icon depth b
  · exact hbelow hchild

end Stands

variable {b : Block P}

/-- No block is below nodes that no block can be in. -/
theorem not_exists_block {α : Type} {f : α → Node P} (hf : ∀ a, (f a).isBlockless = true)
    (l : List α) : ¬ ∃ n ∈ l.map f, .block b ∈ n.tree.preorder := by
  rintro ⟨n, hn, hmem⟩
  obtain ⟨a, -, rfl⟩ := List.mem_map.mp hn
  exact Node.not_mem_of_isBlockless (hf a) b hmem

mutual

/-- The lines of a block stand among those of a block that it is in. -/
theorem stands_blockLines (icon : Text) (depth : Nat) : ∀ c : Block P,
    (∃ n ∈ (Node.block c).children, .block b ∈ n.tree.preorder) →
      Stands icon b (blockLines icon depth c)
  | .paragraph _ cs, h | .heading _ _ cs, h => absurd h (not_exists_block (fun _ => rfl) cs)
  | .table _ rows, h => absurd h (not_exists_block (fun _ => rfl) rows)
  | .code _ _ _, h | .math _ _ _, h => absurd h (by simp [Node.children])
  | .quote _ bs, h => by
    rw [blockLines]
    refine (stands_blocksLines icon 0 bs ?_).quoteLines
    obtain ⟨n, hn, hmem⟩ := h
    obtain ⟨c, hc, rfl⟩ := List.mem_map.mp hn
    exact ⟨c, hc, hmem⟩
  | .list _ ordered items, h => by
    rw [blockLines]
    refine stands_itemsLines icon depth ordered 0 items ?_
    obtain ⟨n, hn, hmem⟩ := h
    obtain ⟨item, hitem, rfl⟩ := List.mem_map.mp hn
    exact ⟨item, hitem, hmem⟩

/-- The lines of a block stand among those of the blocks that it is in. -/
theorem stands_blocksLines (icon : Text) (depth : Nat) : ∀ cs : List (Block P),
    (∃ c ∈ cs, .block b ∈ (Node.block c).tree.preorder) → Stands icon b (blocksLines icon depth cs)
  | [], h => absurd h (by simp)
  | c :: rest, h => by
    have hbelow := stands_blockLines icon depth c
    have hrest := stands_blocksLines icon depth rest
    rw [blocksLines]
    obtain ⟨c', hc, hmem⟩ := h
    rcases List.mem_cons.mp hc with rfl | hc
    · exact (Stands.of_mem hmem hbelow).mono (List.prefix_append _ _).isInfix
    · exact (hrest ⟨c', hc, hmem⟩).mono (List.suffix_append _ _).isInfix

theorem stands_itemsLines (icon : Text) (depth : Nat) (ordered : Bool) (index : Nat) :
    ∀ items : List (ListItem P),
      (∃ item ∈ items, .block b ∈ (Node.listItem item).tree.preorder) →
        Stands icon b (itemsLines icon depth ordered index items)
  | [], h => absurd h (by simp)
  | ⟨i, cs, bs⟩ :: rest, h => by
    rw [itemsLines]
    obtain ⟨item, hitem, hmem⟩ := h
    rcases List.mem_cons.mp hitem with rfl | hitem
    · refine (stands_nestedLines icon depth bs ?_).mono
        ((List.suffix_append _ _).isInfix.trans (List.prefix_append _ _).isInfix)
      -- No block is in the inline content of an item.
      rcases Node.mem_preorder_tree.mp hmem with heq | ⟨n, hn, hmem⟩
      · cases heq
      rcases List.mem_append.mp hn with hn | hn
      · exact absurd ⟨n, hn, hmem⟩ (not_exists_block (fun _ => rfl) cs)
      · obtain ⟨c, hc, rfl⟩ := List.mem_map.mp hn
        exact ⟨c, hc, hmem⟩
    · exact (stands_itemsLines icon depth ordered (index + 1) rest ⟨item, hitem, hmem⟩).mono
        (List.suffix_append _ _).isInfix

theorem stands_nestedLines (icon : Text) (depth : Nat) : ∀ cs : List (Block P),
    (∃ c ∈ cs, .block b ∈ (Node.block c).tree.preorder) → Stands icon b (nestedLines icon depth cs)
  | [], h => absurd h (by simp)
  | c :: rest, h => by
    have hbelow := fun depth => stands_blockLines icon depth c
    have hrest := stands_nestedLines icon depth rest
    obtain ⟨c', hc, hmem⟩ := h
    rcases List.mem_cons.mp hc with rfl | hc
    · cases c' with
      | list i ordered items =>
        -- A list in an item is written one level further.
        have hstands := Stands.of_mem hmem (hbelow (depth + 1))
        rw [blockLines] at hstands
        rw [nestedLines]
        exact hstands.mono (List.prefix_append _ _).isInfix
      | _ =>
        have hstands := Stands.of_mem hmem (hbelow depth)
        rw [nestedLines_cons _ _ (by simp)]
        exact (hstands.marked (.map (suffix_indentLine depth) _)).mono (List.prefix_append _ _).isInfix
    · have hstands := hrest ⟨c', hc, hmem⟩
      cases c with
      | list =>
        rw [nestedLines]
        exact hstands.mono (List.suffix_append _ _).isInfix
      | _ =>
        rw [nestedLines_cons _ _ (by simp)]
        exact hstands.mono (List.suffix_append _ _).isInfix

end

end Markdown

end LatexMarkdown
