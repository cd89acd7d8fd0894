import LatexMarkdown.Proofs.Making
import LatexMarkdown.Proofs.Steps.Keeping
/-!
  How deep nodes are nested.

  `Node.FitsAt depth n` says that under `depth` nodes of nesting kinds the node `n` may stand: no way
  down from it comes to more such nodes than the limit leaves.  A node of such a kind takes one from
  what is left for its children (`fitsAt_of_nests`); any other node hands on what is left
  (`fitsAt_of_not_nests`).  What is read at once nests nothing, so it fits wherever the limit is kept.
-/
namespace LatexMarkdown

open Parse (nestingLimit)

/-! ## Nodes -/

namespace Node

/-- Is it a node of a kind that is nested only so deep? -/
def nests {P : Type} (n : Node P) : Bool :=
  [NodeKind.list, .quote, .table, .strong, .emphasis].contains n.kind

/-- Under `depth` nesting nodes, no way down from the node comes to more of them than there may be. -/
def FitsAt (depth : Nat) (n : Node) : Prop :=
  ∀ path, (n :: path).IsChain (fun m c => c ∈ m.children) →
    depth + (n :: path).countP nests ≤ nestingLimit

variable {d e : Nat} {n : Node}

theorem fitsAt_of_children (hd : d + n.nests.toNat ≤ nestingLimit)
    (h : ∀ c ∈ n.children, c.FitsAt (d + n.nests.toNat)) : n.FitsAt d := by
  intro path hpath
  have hcount : ∀ ms : List Node, (n :: ms).countP nests = n.nests.toNat + ms.countP nests := by
    intro ms
    rw [List.countP_cons, Nat.add_comm]
    cases n.nests <;> rfl
  rw [hcount]
  cases path with
  | nil => simpa using hd
  | cons c rest =>
    rw [List.isChain_cons_cons] at hpath
    have hrest := h c hpath.1 rest hpath.2
    omega

theorem fitsAt_of_nests (hn : n.nests = true) (hd : d + 1 ≤ nestingLimit)
    (h : ∀ c ∈ n.children, c.FitsAt (d + 1)) : n.FitsAt d :=
  fitsAt_of_children (by simpa [hn] using hd) (by simpa [hn] using h)

theorem fitsAt_of_not_nests (hn : n.nests = false) (hd : d ≤ nestingLimit)
    (h : ∀ c ∈ n.children, c.FitsAt d) : n.FitsAt d :=
  fitsAt_of_children (by simpa [hn] using hd) (by simpa [hn] using h)

/-- A node without children that nests nothing. -/
theorem fitsAt_of_leaf (hn : n.nests = false) (hc : n.children = []) (hd : d ≤ nestingLimit) :
    n.FitsAt d :=
  fitsAt_of_not_nests hn hd (by simp [hc])

namespace FitsAt

theorem mono (h : n.FitsAt d) (hed : e ≤ d) : n.FitsAt e := by
  intro path hpath
  have hcount := h path hpath
  omega

theorem le (h : n.FitsAt d) : d ≤ nestingLimit := by
  have hcount := h [] (.singleton n)
  omega

theorem child (h : n.FitsAt d) {c : Node} (hc : c ∈ n.children) : c.FitsAt d := by
  intro path hpath
  have hcount := h (c :: path) (List.isChain_cons_cons.mpr ⟨hc, hpath⟩)
  rw [List.countP_cons] at hcount
  omega

end FitsAt

end Node

/-! ## Content -/

/-- Every node of the content fits. -/
def Inline.FitAt (depth : Nat) (ns : List Inline) : Prop := ∀ n ∈ ns, (Node.inline n).FitsAt depth

/-- Everything gathered fits. -/
def Fragments.FitAt (depth : Nat) (f : Fragments) : Prop := Inline.FitAt depth f.toList

variable {d e : Nat} {ns : List Inline} {f : Fragments}

theorem Inline.FitAt.mono (h : Inline.FitAt d ns) (hed : e ≤ d) : Inline.FitAt e ns :=
  fun n hn => (h n hn).mono hed

theorem Inline.FitAt.children (h : Inline.FitAt d ns) : ∀ c ∈ ns.map Node.inline, c.FitsAt d :=
  List.forall_mem_map.mpr h

theorem Inline.fitsAt_text (hd : d ≤ nestingLimit) (i : NodeInfo) (t : Text) :
    (Node.inline (.text i t)).FitsAt d :=
  Node.fitsAt_of_leaf rfl rfl hd

namespace Fragments.FitAt

theorem empty : ({} : Fragments).FitAt d := by
  intro n hn
  cases hn

theorem pushText (h : f.FitAt d) (hd : d ≤ nestingLimit) (start stop : Nat) (t : Text) :
    (f.pushText start stop t).FitAt d :=
  forall_pushText (fun i _ => Inline.fitsAt_text hd i) h start stop t

theorem pushAll (h : f.FitAt d) (hd : d ≤ nestingLimit) (hns : Inline.FitAt d ns) :
    (f.pushAll ns).FitAt d :=
  forall_pushAll (fun i _ => Inline.fitsAt_text hd i) h hns

theorem finish (h : f.FitAt d) (hd : d ≤ nestingLimit) : Inline.FitAt d f.finish := by
  intro n hn
  rcases Inline.mem_normalize hn with ⟨hmem, -⟩ | ⟨i, t, rfl, -⟩
  · exact h n hmem
  · exact Inline.fitsAt_text hd i t

end Fragments.FitAt

namespace Parse

/-- What is read at once nests nothing. -/
theorem Reads.fitAt {ctx : Context} {c c' : Cursor} (h : Reads ctx c c' ns) (hd : d ≤ nestingLimit) :
    Inline.FitAt d ns := by
  have htext := Inline.fitsAt_text hd
  cases h with
  | dropped => exact fun n hn => absurd hn List.not_mem_nil
  | text t => exact List.forall_mem_singleton.mpr (htext _ t)
  | comment t =>
    exact List.forall_mem_cons.mpr
      ⟨htext _ t, List.forall_mem_singleton.mpr (Node.fitsAt_of_leaf rfl rfl hd)⟩
  | hardBreak => exact List.forall_mem_singleton.mpr (Node.fitsAt_of_leaf rfl rfl hd)
  | url =>
    -- A link that is its own text has that text below it.
    refine List.forall_mem_singleton.mpr (Node.fitsAt_of_not_nests rfl hd ?_)
    exact List.forall_mem_singleton.mpr (htext _ _)
  | verbatim => exact List.forall_mem_singleton.mpr (Node.fitsAt_of_leaf rfl rfl hd)
  | math h =>
    intro n hn
    have hspan := isMathSpan_of_readInlineMath h hn
    cases n with
    | math i t => exact Node.fitsAt_of_leaf rfl rfl hd
    | _ => exact hspan.elim

/-- A block that is read at once nests nothing. -/
theorem Leaf.fitsAt {ctx : Context} {c c' : Cursor} {b : Block} (h : Leaf ctx c c' b)
    (hd : d ≤ nestingLimit) : (Node.block b).FitsAt d := by
  cases h <;> exact Node.fitsAt_of_leaf rfl rfl hd

/-- An argument is open one deeper than what it interrupts, so formatting may go around it. -/
theorem fitAt_closeArgument {purpose : Purpose} {argument outer : Fragments}
    (hargument : argument.FitAt (d + 1)) (houter : outer.FitAt d) (hd : d + 1 ≤ nestingLimit)
    (stop : Nat) : (State.closeArgument purpose argument stop outer).FitAt d := by
  have hle : d ≤ nestingLimit := by omega
  have hinner := hargument.finish hd
  have hsame := hinner.mono (Nat.le_succ d)
  have htext := Inline.fitsAt_text hle
  refine forall_closeArgument (fun i _ => htext i) houter hsame ?_ ?_ ?_ stop
  · -- A link that is its own text.
    intro m url i _ _
    exact Node.fitsAt_of_not_nests rfl hle (List.forall_mem_singleton.mpr (htext _ _))
  · exact fun m url i _ _ _ => Node.fitsAt_of_not_nests rfl hle hsame.children
  · exact fun _ i _ => ⟨Node.fitsAt_of_nests rfl hd hinner.children,
      Node.fitsAt_of_nests rfl hd hinner.children, Node.fitsAt_of_leaf rfl rfl hle⟩

/-- A label is open one deeper than its item, so strong text may go around it. -/
theorem fitsAt_listItem {label : List Inline} {blocks : List Block}
    (hlabel : Inline.FitAt (d + 1) label) (hblocks : ∀ b ∈ blocks, (Node.block b).FitsAt d)
    (hd : d ≤ nestingLimit) (start stop : Nat) (i : NodeInfo) :
    (Node.listItem { listItem start stop label blocks with info := i }).FitsAt d := by
  obtain ⟨content, rest, heq, hcontent, hrest⟩ := exists_listItem_eq label blocks start stop
  have hparagraph : Inline.FitAt d content := by
    rcases hcontent with rfl | ⟨j, hmem⟩
    · exact fun n hn => absurd hn List.not_mem_nil
    · exact fun n hn => (hblocks _ hmem).child (List.mem_map_of_mem hn)
  -- The label was read one deeper than the item, which leaves room for the strong node around it.
  have hlabelled : Inline.FitAt d (labelled label content) := by
    refine forall_labelled (fun i _ => Inline.fitsAt_text hd i) (fun hne i _ => ?_) hparagraph
    obtain ⟨first, more, rfl⟩ := List.exists_cons_of_ne_nil hne
    exact Node.fitsAt_of_nests rfl (hlabel first List.mem_cons_self).le hlabel.children
  rw [heq]
  refine Node.fitsAt_of_not_nests rfl hd fun c hc => ?_
  rcases List.mem_append.mp hc with hc | hc
  · exact hlabelled.children c hc
  · obtain ⟨b, hb, rfl⟩ := List.mem_map.mp hc
    exact hblocks b (hrest hb)

end Parse

end LatexMarkdown
