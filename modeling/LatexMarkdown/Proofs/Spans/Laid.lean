import LatexMarkdown.Document.Query
import LatexMarkdown.Proofs.Spacing
import LatexMarkdown.Proofs.Tiling
/-!
  Nodes in source order.

  `InOrder` says that nodes stand one behind the other between two offsets, and `Node.Spans` what the
  span of one node is like: it lies in the source, and the children stand in order in it.  The one
  exception is a table row that ends before its last cell (`EndsEarly`).  `Laid` takes both to nodes
  and everything below them.

  Content is laid as it is gathered, and stays so in normal form: `Laid.pushText`, `Laid.pushAll` and
  `Laid.finish`.
-/
namespace LatexMarkdown

/-! ## The nodes of a tree -/

section Trees

variable {P : Type}

theorem Tree.mem_preorderOf {α : Type} {a : α} {ts : List (Tree α)} :
    a ∈ preorderOf ts ↔ ∃ t ∈ ts, a ∈ t.preorder := by
  induction ts with
  | nil => simp [preorderOf]
  | cons t rest ih => simp [preorderOf, ih]

theorem Inline.trees_eq_map (ns : List (Inline P)) :
    Inline.trees ns = (ns.map .inline).map Node.tree := by
  induction ns with
  | nil => rfl
  | cons n rest ih => rw [trees, ih]; rfl

theorem Block.trees_eq_map (bs : List (Block P)) :
    Block.trees bs = (bs.map .block).map Node.tree := by
  induction bs with
  | nil => rfl
  | cons b rest ih => rw [trees, ih]; rfl

theorem ListItem.trees_eq_map (items : List (ListItem P)) :
    ListItem.trees items = (items.map .listItem).map Node.tree := by
  induction items with
  | nil => rfl
  | cons item rest ih => rw [trees, ih]; rfl

/-- The subtrees of a node's tree are the trees of its children. -/
theorem Node.children_tree (n : Node P) : n.tree.children = n.children.map tree := by
  cases n with
  | document d => exact Block.trees_eq_map d.children
  | block b =>
    cases b <;>
      simp [tree, Block.tree, Tree.children, children, Inline.trees_eq_map, Block.trees_eq_map,
        ListItem.trees_eq_map]
  | listItem i =>
    cases i
    simp [tree, ListItem.tree, Tree.children, children, Inline.trees_eq_map, Block.trees_eq_map]
  | tableRow r =>
    simp only [tree, TableRow.tree, Tree.children, children, List.map_map]
    rfl
  | tableCell c => exact Inline.trees_eq_map c.children
  | inline n =>
    cases n <;>
      simp [tree, Inline.tree, Tree.children, children, Inline.children, Inline.trees_eq_map]

/-- The nodes from a node down are the node and those from its children down. -/
theorem Node.mem_preorder_tree {m n : Node P} :
    m ∈ n.tree.preorder ↔ m = n ∨ ∃ c ∈ n.children, m ∈ c.tree.preorder := by
  have hpreorder : ∀ t : Tree (Node P),
      m ∈ t.preorder ↔ m = t.label ∨ m ∈ Tree.preorderOf t.children := by
    intro t
    cases t
    simp [Tree.preorder, Tree.label, Tree.children]
  rw [hpreorder, label_tree, Tree.mem_preorderOf, children_tree]
  simp

end Trees

/-! ## Order -/

/-- Nodes one behind the other between two offsets. -/
structure InOrder (lo hi : Nat) (ns : List Node) : Prop where
  within : ∀ n ∈ ns, lo ≤ n.start ∧ n.start ≤ n.stop ∧ n.stop ≤ hi
  ordered : ns.Pairwise fun a b => a.stop ≤ b.start

/-- A table row that ends before its last cell.  The cell begins behind comments that were dropped,
holds nothing, and spans nothing. -/
structure EndsEarly (source : Text) (keep : Bool) (r : TableRow) (cells : List TableCell) (p : Nat) :
    Prop where
  cells_eq : r.cells = cells ++ [{ info := .span p p, children := [] }]
  inOrder : InOrder r.info.start r.info.stop (cells.map .tableCell)
  lt : r.info.stop < p
  gap : source.Gap keep r.info.stop p
  le : p ≤ source.length

/-- The span of a node lies in the source, and its children stand in order in it. -/
structure Node.Spans (source : Text) (keep : Bool) (n : Node) : Prop where
  upright : n.start ≤ n.stop
  stop_le : n.stop ≤ source.length
  children : InOrder n.start n.stop n.children ∨
    ∃ r cells p, n = .tableRow r ∧ EndsEarly source keep r cells p

/-- From the node down every span is in order. -/
def Node.Orderly (source : Text) (keep : Bool) (n : Node) : Prop :=
  ∀ m ∈ n.tree.preorder, m.Spans source keep

/-- Nodes in order between two offsets, and everything below them. -/
structure Laid (source : Text) (keep : Bool) (lo hi : Nat) (ns : List Node) : Prop where
  inOrder : InOrder lo hi ns
  orderly : ∀ n ∈ ns, n.Orderly source keep

variable {source : Text} {keep : Bool} {lo lo' mid hi hi' start stop : Nat} {n : Node}
  {ns ns' : List Node}

namespace Node.Orderly

/-- The node itself. -/
theorem spans (h : n.Orderly source keep) : n.Spans source keep :=
  h n (mem_preorder_tree.mpr (.inl rfl))

theorem le (h : n.Orderly source keep) : n.start ≤ n.stop := h.spans.upright

theorem of_spans (h : n.Spans source keep) (hc : ∀ c ∈ n.children, c.Orderly source keep) :
    n.Orderly source keep := by
  intro m hm
  rcases mem_preorder_tree.mp hm with rfl | ⟨c, hmem, hm⟩
  · exact h
  · exact hc c hmem m hm

/-- A node around children that are laid. -/
theorem of_children (hle : n.start ≤ n.stop) (hstop : n.stop ≤ source.length)
    (h : Laid source keep n.start n.stop n.children) : n.Orderly source keep :=
  .of_spans ⟨hle, hstop, .inl h.inOrder⟩ h.orderly

/-- A node without children. -/
theorem of_children_nil (hle : n.start ≤ n.stop) (hstop : n.stop ≤ source.length)
    (h : n.children = []) : n.Orderly source keep :=
  .of_children hle hstop (by rw [h]; exact ⟨⟨by simp, .nil⟩, by simp⟩)

end Node.Orderly

namespace Laid

theorem nil : Laid source keep lo hi [] := ⟨⟨by simp, .nil⟩, by simp⟩

theorem mono (h : Laid source keep lo hi ns) (hlo : lo' ≤ lo) (hhi : hi ≤ hi') :
    Laid source keep lo' hi' ns := by
  refine ⟨⟨fun n hn => ?_, h.inOrder.ordered⟩, h.orderly⟩
  obtain ⟨hstart, hle, hstop⟩ := h.inOrder.within n hn
  exact ⟨Nat.le_trans hlo hstart, hle, Nat.le_trans hstop hhi⟩

theorem mono_right (h : Laid source keep lo hi ns) (hhi : hi ≤ hi') :
    Laid source keep lo hi' ns := h.mono (Nat.le_refl _) hhi

theorem sublist (h : Laid source keep lo hi ns) (hs : ns'.Sublist ns) :
    Laid source keep lo hi ns' :=
  ⟨⟨fun n hn => h.inOrder.within n (hs.subset hn), h.inOrder.ordered.sublist hs⟩,
    fun n hn => h.orderly n (hs.subset hn)⟩

theorem append (h : Laid source keep lo mid ns) (h' : Laid source keep mid hi ns')
    (hlo : lo ≤ mid) (hhi : mid ≤ hi) : Laid source keep lo hi (ns ++ ns') := by
  refine ⟨⟨fun n hn => ?_, List.pairwise_append.mpr ⟨h.inOrder.ordered, h'.inOrder.ordered, ?_⟩⟩,
    fun n hn => (List.mem_append.mp hn).elim (h.orderly n) (h'.orderly n)⟩
  · rcases List.mem_append.mp hn with hn | hn
    · exact (h.mono_right hhi).inOrder.within n hn
    · exact (h'.mono hlo (Nat.le_refl _)).inOrder.within n hn
  · intro a ha b hb
    exact Nat.le_trans (h.inOrder.within a ha).2.2 (h'.inOrder.within b hb).1

/-- A node in front of others. -/
theorem cons (hn : n.Orderly source keep) (hlo : lo ≤ n.start) (hhi : n.stop ≤ hi)
    (h : Laid source keep n.stop hi ns) : Laid source keep lo hi (n :: ns) := by
  have hsingle : Laid source keep lo n.stop [n] :=
    ⟨⟨by simp [hlo, hn.le], .cons (by simp) .nil⟩, by simpa using hn⟩
  exact hsingle.append h (Nat.le_trans hlo hn.le) hhi

theorem of_cons (h : Laid source keep lo hi (n :: ns)) :
    n.Orderly source keep ∧ lo ≤ n.start ∧ n.stop ≤ hi ∧ Laid source keep n.stop hi ns := by
  obtain ⟨hlo, hle, hhi⟩ := h.inOrder.within n List.mem_cons_self
  obtain ⟨hbehind, hordered⟩ := List.pairwise_cons.mp h.inOrder.ordered
  refine ⟨h.orderly n List.mem_cons_self, hlo, hhi, ⟨fun m hm => ?_, hordered⟩,
    fun m hm => h.orderly m (List.mem_cons_of_mem _ hm)⟩
  exact ⟨hbehind m hm, (h.inOrder.within m (List.mem_cons_of_mem _ hm)).2⟩

/-- The first node, and those behind it. -/
theorem cons_iff : Laid source keep lo hi (n :: ns) ↔
    n.Orderly source keep ∧ lo ≤ n.start ∧ n.stop ≤ hi ∧ Laid source keep n.stop hi ns :=
  ⟨of_cons, fun ⟨hn, hlo, hhi, h⟩ => cons hn hlo hhi h⟩

theorem of_concat (h : Laid source keep lo hi (ns ++ [n])) :
    Laid source keep lo n.start ns ∧ n.Orderly source keep ∧ lo ≤ n.start ∧ n.stop ≤ hi := by
  obtain ⟨hlo, hle, hhi⟩ := h.inOrder.within n (by simp)
  obtain ⟨hordered, -, hbefore⟩ := List.pairwise_append.mp h.inOrder.ordered
  refine ⟨⟨⟨fun m hm => ?_, hordered⟩, fun m hm => h.orderly m (List.mem_append_left _ hm)⟩,
    h.orderly n (by simp), hlo, hhi⟩
  obtain ⟨hstart, hupright, -⟩ := h.inOrder.within m (List.mem_append_left _ hm)
  exact ⟨hstart, hupright, hbefore m hm n (by simp)⟩

/-- The last node, and those before it. -/
theorem concat_iff : Laid source keep lo hi (ns ++ [n]) ↔
    Laid source keep lo n.start ns ∧ n.Orderly source keep ∧ lo ≤ n.start ∧ n.stop ≤ hi :=
  ⟨of_concat, fun ⟨h, hn, hlo, hhi⟩ =>
    h.append (cons hn (Nat.le_refl _) hhi .nil) hlo (Nat.le_trans hn.le hhi)⟩

/-- A node around children that are laid, on its own. -/
theorem singleton (hstart : n.start = start) (hstop : n.stop = stop) (hle : start ≤ stop)
    (hend : stop ≤ source.length) (h : Laid source keep start stop n.children) :
    Laid source keep start stop [n] := by
  subst hstart hstop
  exact cons_iff.mpr ⟨.of_children hle hend h, Nat.le_refl _, Nat.le_refl _, .nil⟩

/-- One more node, that begins where the others have ended. -/
theorem concat (h : Laid source keep lo hi ns) (hn : n.Orderly source keep) (hlo : lo ≤ n.start)
    (hhi : hi ≤ n.start) : Laid source keep lo n.stop (ns ++ [n]) :=
  concat_iff.mpr ⟨h.mono_right hhi, hn, hlo, Nat.le_refl _⟩

/-- What holds something does not end before it begins. -/
theorem le (h : Laid source keep lo hi ns) (hne : ns ≠ []) : lo ≤ hi := by
  obtain ⟨n, ns, rfl⟩ := List.exists_cons_of_ne_nil hne
  obtain ⟨hn, hlo, hhi, -⟩ := cons_iff.mp h
  exact Nat.le_trans hlo (Nat.le_trans hn.le hhi)

end Laid

/-- Nodes reach from where the first begins to where the last ends. -/
theorem Laid.tighten {first last : Node} (h : Laid source keep lo hi ns)
    (hf : ns.head? = some first) (hl : ns.getLast? = some last) :
    Laid source keep first.start last.stop ns := by
  obtain ⟨rest, rfl⟩ := List.head?_eq_some_iff.mp hf
  obtain ⟨hn, -, hhi, hrest⟩ := cons_iff.mp h
  have hfirst : Laid source keep first.start hi (first :: rest) :=
    cons_iff.mpr ⟨hn, Nat.le_refl _, hhi, hrest⟩
  obtain ⟨init, heq⟩ := List.getLast?_eq_some_iff.mp hl
  rw [heq] at hfirst ⊢
  obtain ⟨hinit, hlast, hlo, -⟩ := concat_iff.mp hfirst
  exact concat_iff.mpr ⟨hinit, hlast, hlo, Nat.le_refl _⟩

/-- The children of a node that is no table row. -/
theorem Node.Orderly.laid_children (h : n.Orderly source keep) (hn : n.kind ≠ .tableRow) :
    Laid source keep n.start n.stop n.children := by
  refine ⟨?_, fun c hc m hm => h m (mem_preorder_tree.mpr (.inr ⟨c, hc, hm⟩))⟩
  rcases h.spans.children with hchildren | ⟨r, cells, p, rfl, -⟩
  · exact hchildren
  · exact absurd rfl hn

/-! ## Inline content -/

theorem Inline.orderly_text {i : NodeInfo} {t : Text} (hle : i.start ≤ i.stop)
    (hstop : i.stop ≤ source.length) : (Node.inline (.text i t)).Orderly source keep :=
  .of_children_nil hle hstop rfl

namespace Laid

variable {content : List Inline}

theorem mergeTexts (h : Laid source keep lo hi (content.map .inline)) :
    Laid source keep lo hi ((Inline.mergeTexts content).map .inline) := by
  induction content generalizing lo with
  | nil => exact h
  | cons n rest ih =>
    obtain ⟨hn, hlo, hhi, hrest⟩ := cons_iff.mp h
    have hmerged := ih hrest
    show Laid source keep lo hi ((Inline.mergeInto n (Inline.mergeTexts rest)).map .inline)
    unfold Inline.mergeInto
    split
    · next i s j t behind heq =>
      -- The two texts become one that ends with the second.
      rw [heq] at hmerged
      obtain ⟨ht, hbetween, hstop, hbehind⟩ := cons_iff.mp hmerged
      refine cons_iff.mpr ⟨Inline.orderly_text ?_ ht.spans.stop_le, hlo, hstop, hbehind⟩
      exact Nat.le_trans hn.le (Nat.le_trans hbetween ht.le)
    · exact cons_iff.mpr ⟨hn, hlo, hhi, hmerged⟩

theorem tidyTexts (h : Laid source keep lo hi (content.map .inline)) (atEdge : Bool) :
    Laid source keep lo hi ((Inline.tidyTexts atEdge content).map .inline) := by
  induction content generalizing lo atEdge with
  | nil => exact h
  | cons n rest ih =>
    obtain ⟨hn, hlo, hhi, hrest⟩ := cons_iff.mp h
    cases n with
    | text i t =>
      have htext : ∀ t', (Node.inline (.text { start := i.start, stop := i.stop } t')).Orderly
          source keep := fun t' => Inline.orderly_text hn.le hn.spans.stop_le
      exact cons_iff.mpr ⟨htext _, hlo, hhi, ih hrest false⟩
    | _ => exact cons_iff.mpr ⟨hn, hlo, hhi, ih hrest _⟩

/-- Normal form leaves content in order. -/
theorem normalize (h : Laid source keep lo hi (content.map .inline)) :
    Laid source keep lo hi ((Inline.normalize content).map .inline) := by
  -- Once texts are merged and tidied, nodes are only dropped.
  have htrim : ∀ l : List Inline, (Inline.trimHardBreaks l).Sublist l := by
    intro l
    rw [Inline.trimHardBreaks, ← List.reverse_sublist, List.reverse_reverse]
    exact (List.dropWhile_sublist _).trans (List.reverse_sublist.mpr (List.dropWhile_sublist _))
  exact (h.mergeTexts.tidyTexts true).sublist
    (List.Sublist.map _ ((htrim _).trans List.filter_sublist))

/-! ## Content in the making -/

variable {f : Fragments}

theorem finish (h : Laid source keep lo hi (f.toList.map .inline)) :
    Laid source keep lo hi (f.finish.map .inline) := h.normalize

/-- A fragment of text is added behind what was gathered. -/
theorem pushText (h : Laid source keep lo hi (f.toList.map .inline)) (hlo : lo ≤ start)
    (hhi : hi ≤ start) (hle : start ≤ stop) (hstop : stop ≤ source.length) (t : Text) :
    Laid source keep lo stop ((f.pushText start stop t).toList.map .inline) := by
  rw [Fragments.toList_eq, List.map_append] at h
  rw [Fragments.toList_eq, List.map_append, Fragments.pushText]
  cases hp : f.pending? with
  | none =>
    rw [hp] at h
    have hnodes : Laid source keep lo start (f.nodes.reverse.map .inline) := by
      simpa using h.mono_right hhi
    exact concat_iff.mpr ⟨hnodes, Inline.orderly_text hle hstop, hlo, Nat.le_refl _⟩
  | some opened =>
    rw [hp] at h
    -- The text that is pending grows to the new end.
    obtain ⟨hnodes, hopened, hstart, hend⟩ := concat_iff.mp h
    have hle' : opened.start ≤ stop :=
      Nat.le_trans hopened.le (Nat.le_trans hend (Nat.le_trans hhi hle))
    exact concat_iff.mpr ⟨hnodes, Inline.orderly_text hle' hstop, hstart, Nat.le_refl _⟩

/-- A finished node is added behind what was gathered. -/
theorem push {n : Inline} (h : Laid source keep lo hi (f.toList.map .inline))
    (hn : (Node.inline n).Orderly source keep) (hlo : lo ≤ n.info.start)
    (hhi : hi ≤ n.info.start) :
    Laid source keep lo n.info.stop ((f.push n).toList.map .inline) := by
  rw [Fragments.toList_push, List.map_append]
  exact h.concat hn hlo hhi

/-- Finished content is added behind what was gathered. -/
theorem pushAll (h : Laid source keep lo mid (f.toList.map .inline))
    (h' : Laid source keep mid hi (content.map .inline)) (hlo : lo ≤ mid) (hhi : mid ≤ hi) :
    Laid source keep lo hi ((f.pushAll content).toList.map .inline) := by
  induction content generalizing f mid with
  | nil => exact h.mono_right hhi
  | cons n rest ih =>
    obtain ⟨hn, hstart, hstop, hrest⟩ := cons_iff.mp h'
    have hlo' := Nat.le_trans hlo hstart
    -- A text joins what is pending, any other node ends it.
    refine ih ?_ hrest (Nat.le_trans hlo' hn.le) hstop
    cases n with
    | text i t => exact h.pushText hlo' hstart hn.le hn.spans.stop_le t
    | _ => exact h.push hn hlo' hstart

end Laid

end LatexMarkdown
