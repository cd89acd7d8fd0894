import LatexMarkdown.Proofs.Rendering
import LatexMarkdown.Proofs.Spans.Laid
import LatexMarkdown.Proofs.Unbroken.Pieces
/-!
  Lines without a line feed.

  Paragraphs, list items and mathematics are cut into lines at their line feeds.  What is written
  without a cut is a heading, a table cell and the language of code; `Node.Unbroken` asks that these
  have no line feed, and nothing of other nodes.  Main statement: `unbroken_blockLines`, the lines of
  a block have no line feed if all nodes from the block down are unbroken.
-/
namespace LatexMarkdown

open Markdown

/-! ## Nodes -/

/-- No line feed stands in what a node is written with on one line. -/
def Node.Unbroken : Node → Prop
  | .block (.heading _ _ cs) => (oneLine cs).Unbroken
  | .block (.code _ _ language) => ∀ l ∈ language, l.Unbroken
  | .tableCell c => (oneLine c.children).Unbroken
  | _ => True

/-- All nodes from a node down are unbroken. -/
def Node.AllUnbroken (n : Node) : Prop := ∀ m ∈ n.tree.preorder, m.Unbroken

namespace Node.AllUnbroken

variable {n : Node}

/-- The node itself. -/
theorem unbroken (h : n.AllUnbroken) : n.Unbroken := h n (mem_preorder_tree.mpr (.inl rfl))

theorem children (h : n.AllUnbroken) : ∀ c ∈ n.children, c.AllUnbroken := fun c hc m hm =>
  h m (mem_preorder_tree.mpr (.inr ⟨c, hc, hm⟩))

end Node.AllUnbroken

namespace Markdown

open Text (Unbroken)

variable {P : Type}

/-! ## Single lines -/

theorem unbroken_codeLines (code : Text) : ∀ line ∈ codeLines code, line.Unbroken := by
  intro line hline
  rcases List.mem_append.mp hline with hline | hline
  · obtain ⟨piece, hpiece, rfl⟩ := List.mem_map.mp hline
    have hunbroken := Text.unbroken_of_mem_splitOn (List.dropLast_subset _ hpiece)
    split
    · exact hunbroken.mono (List.dropLast_subset _)
    · exact hunbroken
  · exact Text.unbroken_of_mem_splitOn (List.mem_of_getLast? (Option.mem_toList.mp hline))

theorem unbroken_codeBlockLines (code : Text) {language : Option Text}
    (h : ∀ l ∈ language, Unbroken l) :
    ∀ line ∈ codeBlockLines code language, line.Unbroken := by
  have hfence : ∀ n, (backticks n).Unbroken := fun n => .replicate n (by decide)
  have hlanguage : (language.getD []).Unbroken := by
    cases language with
    | none => exact .nil
    | some l => exact h l rfl
  intro line hline
  rcases List.mem_append.mp hline with hline | hline
  · rcases List.mem_cons.mp hline with rfl | hline
    · exact (hfence _).append hlanguage
    · split at hline
      · cases hline
      · exact unbroken_codeLines code line hline
  · rw [List.mem_singleton.mp hline]
    exact hfence _

/-- The pipes of a cell are escaped without a line feed. -/
theorem unbroken_cellText {c : TableCell P} (h : (oneLine c.children).Unbroken) :
    (cellText c).Unbroken :=
  h.replaceEach fun _ _ => by decide

theorem unbroken_rowLine (columns : Nat) {r : TableRow P}
    (h : ∀ c ∈ r.cells, (oneLine c.children).Unbroken) : (rowLine columns r).Unbroken := by
  have hopen : Unbroken "| " := by decide
  have hclose : Unbroken " |" := by decide
  have hbetween : Unbroken " | " := by decide
  refine (hopen.append (hbetween.join fun t ht => ?_)).append hclose
  rcases List.mem_append.mp ht with ht | ht
  · obtain ⟨c, hc, rfl⟩ := List.mem_map.mp ht
    exact unbroken_cellText (h c hc)
  · rw [List.eq_of_mem_replicate ht]
    exact .nil

theorem unbroken_separatorLine (columns : Nat) : (separatorLine columns).Unbroken := by
  have hopen : Unbroken "|" := by decide
  have hcell : Unbroken " --- |" := by decide
  refine hopen.append (Text.Unbroken.nil.join fun t ht => ?_)
  rwa [List.eq_of_mem_replicate ht]

theorem unbroken_tableLines {rows : List (TableRow P)}
    (h : ∀ r ∈ rows, ∀ c ∈ r.cells, (oneLine c.children).Unbroken) :
    ∀ line ∈ tableLines rows, line.Unbroken := by
  cases rows with
  | nil => simp [tableLines]
  | cons first rest =>
    intro line hline
    rcases List.mem_cons.mp hline with rfl | hline
    · exact unbroken_rowLine _ (h first List.mem_cons_self)
    rcases List.mem_cons.mp hline with rfl | hline
    · exact unbroken_separatorLine _
    · obtain ⟨r, hr, rfl⟩ := List.mem_map.mp hline
      exact unbroken_rowLine _ (h r (List.mem_cons_of_mem _ hr))

/-- A table has one line more than it has rows. -/
theorem length_tableLines {rows : List (TableRow P)} (hne : rows ≠ []) :
    (tableLines rows).length = rows.length + 1 := by
  cases rows with
  | nil => exact absurd rfl hne
  | cons first rest => simp [tableLines]

theorem unbroken_headingMark (level : Number) : (headingMark level).Unbroken := by
  have hspace : Unbroken [0x20] := by decide
  exact (Text.Unbroken.replicate _ (by decide)).append hspace

/-! ## Marks in front of lines -/

theorem unbroken_quoteLine {line : Text} (h : line.Unbroken) : (quoteLine line).Unbroken := by
  have hmark : Unbroken "> " := by decide
  unfold quoteLine
  split
  · decide
  · exact hmark.append h

theorem unbroken_quoteLines {icon : Text} {lines : List Text} (hicon : icon.Unbroken)
    (h : ∀ line ∈ lines, line.Unbroken) : ∀ line ∈ quoteLines icon lines, line.Unbroken := by
  have hspace : Unbroken " " := by decide
  cases lines with
  | nil =>
    intro line hline
    rw [List.mem_singleton.mp hline]
    exact unbroken_quoteLine hicon
  | cons first rest =>
    have hfirst := h first List.mem_cons_self
    intro line hline
    obtain ⟨inner, hinner, rfl⟩ := List.mem_map.mp hline
    refine unbroken_quoteLine ?_
    rcases List.mem_cons.mp hinner with rfl | hinner
    · -- The icon stands in front of the first line.
      split
      · exact hfirst
      split
      · exact hicon
      · exact (hicon.append hspace).append hfirst
    · exact h inner (List.mem_cons_of_mem _ hinner)

theorem unbroken_indentation (depth : Nat) : (indentation depth).Unbroken :=
  .replicate _ (by decide)

theorem unbroken_itemMark (ordered : Bool) (index : Nat) : (itemMark ordered index).Unbroken := by
  have hdot : Unbroken ". " := by decide
  unfold itemMark
  split
  · exact (Text.unbroken_ofNat _).append hdot
  · decide

theorem unbroken_itemLines (depth : Nat) {mark : Text} {content : List Text} (hmark : mark.Unbroken)
    (h : ∀ line ∈ content, line.Unbroken) :
    ∀ line ∈ itemLines depth mark content, line.Unbroken := by
  cases content with
  | nil => simp [itemLines]
  | cons first rest =>
    intro line hline
    rcases List.mem_cons.mp hline with rfl | hline
    · have hfirst := h first List.mem_cons_self
      exact (((unbroken_indentation depth).append hmark).append hfirst).mono (Text.trimEnd_subset _)
    · obtain ⟨inner, hinner, rfl⟩ := List.mem_map.mp hline
      exact (unbroken_indentation _).append (h inner (List.mem_cons_of_mem _ hinner))

theorem unbroken_indentLine (depth : Nat) {line : Text} (h : line.Unbroken) :
    (indentLine depth line).Unbroken := by
  unfold indentLine
  split
  · exact .nil
  · exact (unbroken_indentation _).append h

/-! ## Blocks -/

variable {icon : Text}

mutual

/-- The lines of a block have no line feed. -/
theorem unbroken_blockLines (hicon : icon.Unbroken) (depth : Nat) : ∀ b : Block,
    (Node.block b).AllUnbroken → ∀ line ∈ blockLines icon depth b, line.Unbroken
  | .paragraph _ _, _ => by
    rw [blockLines]
    exact fun _ => Text.unbroken_of_mem_splitOn
  | .heading _ level cs, h => by
    intro line hline
    rw [blockLines] at hline
    rw [List.mem_singleton.mp hline]
    exact (unbroken_headingMark level).append h.unbroken
  | .quote _ bs, h => by
    rw [blockLines]
    exact unbroken_quoteLines hicon
      (unbroken_blocksLines hicon 0 bs fun b hb => h.children _ (List.mem_map_of_mem hb))
  | .list _ ordered items, h => by
    rw [blockLines]
    exact unbroken_itemsLines hicon depth ordered 0 items fun item hitem =>
      h.children _ (List.mem_map_of_mem hitem)
  | .code _ code _, h => by
    rw [blockLines]
    exact unbroken_codeBlockLines code h.unbroken
  | .table _ rows, h => by
    -- Cells are two levels further down.
    rw [blockLines]
    refine unbroken_tableLines fun r hr c hc => ?_
    have hrow := h.children (.tableRow r) (List.mem_map_of_mem hr)
    exact (hrow.children (.tableCell c) (List.mem_map_of_mem hc)).unbroken
  | .math _ _ _, _ => by
    rw [blockLines]
    exact fun _ => Text.unbroken_of_mem_splitOn

theorem unbroken_blocksLines (hicon : icon.Unbroken) (depth : Nat) : ∀ bs : List Block,
    (∀ b ∈ bs, (Node.block b).AllUnbroken) → ∀ line ∈ blocksLines icon depth bs, line.Unbroken
  | [], _ => by simp [blocksLines]
  | b :: rest, h => by
    rw [blocksLines]
    refine List.forall_mem_append.mpr ⟨?_, ?_⟩
    · exact unbroken_blockLines hicon depth b (h b List.mem_cons_self)
    · exact unbroken_blocksLines hicon depth rest fun b hb => h b (List.mem_cons_of_mem _ hb)

theorem unbroken_itemsLines (hicon : icon.Unbroken) (depth : Nat) (ordered : Bool) (index : Nat) :
    ∀ items : List ListItem, (∀ item ∈ items, (Node.listItem item).AllUnbroken) →
      ∀ line ∈ itemsLines icon depth ordered index items, line.Unbroken
  | [], _ => by simp [itemsLines]
  | ⟨i, cs, bs⟩ :: rest, h => by
    have hitem := h ⟨i, cs, bs⟩ List.mem_cons_self
    rw [itemsLines]
    refine List.forall_mem_append.mpr ⟨List.forall_mem_append.mpr ⟨?_, ?_⟩, ?_⟩
    · exact unbroken_itemLines depth (unbroken_itemMark ordered index) fun _ =>
        Text.unbroken_of_mem_splitOn
    · exact unbroken_nestedLines hicon depth bs fun b hb =>
        hitem.children _ (List.mem_append_right _ (List.mem_map_of_mem hb))
    · exact unbroken_itemsLines hicon depth ordered (index + 1) rest fun item hmem =>
        h item (List.mem_cons_of_mem _ hmem)

theorem unbroken_nestedLines (hicon : icon.Unbroken) (depth : Nat) : ∀ bs : List Block,
    (∀ b ∈ bs, (Node.block b).AllUnbroken) → ∀ line ∈ nestedLines icon depth bs, line.Unbroken
  | [], _ => by simp [nestedLines]
  | b :: rest, h => by
    have hlines := unbroken_blockLines hicon depth b (h b List.mem_cons_self)
    have hrest := unbroken_nestedLines hicon depth rest fun b hb => h b (List.mem_cons_of_mem _ hb)
    cases b with
    | list i ordered items =>
      -- A list is not indented, since its items are.
      have hitems := unbroken_itemsLines hicon (depth + 1) ordered 0 items fun item hitem =>
        (h _ List.mem_cons_self).children _ (List.mem_map_of_mem hitem)
      rw [nestedLines]
      exact List.forall_mem_append.mpr ⟨hitems, hrest⟩
    | _ =>
      rw [nestedLines_cons _ _ (by simp)]
      refine List.forall_mem_append.mpr ⟨fun line hline => ?_, hrest⟩
      obtain ⟨inner, hinner, rfl⟩ := List.mem_map.mp hline
      exact unbroken_indentLine depth (hlines inner hinner)

end

end Markdown

end LatexMarkdown
