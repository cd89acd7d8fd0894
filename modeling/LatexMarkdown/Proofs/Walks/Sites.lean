import LatexMarkdown.Document.Query
import LatexMarkdown.Proofs.Spans.Laid
import Mathlib.Data.List.Basic
/-!
  Where the labels of a tree stand.

  Equal labels may stand at several places of a tree.  `Tree.sites` has every label with its address
  and the label right above it, so the orders of a tree become lists in which every place occurs once.
  For the tree of a node these are the nodes that `Node.atAddress?` finds (`Node.mem_sites`).

  In document order no site comes behind one that it is above or equal to (`pairwise_sites`), which is
  all that walks ask of the order.
-/
namespace LatexMarkdown

namespace Tree

variable {α : Type}

/-- A place in a tree: its address, the label there, and the label right above it. -/
structure Site (α : Type) where
  address : List Nat
  label : α
  parent : Option α

/-- Does the first site stand above the second? -/
def Site.IsAbove (e f : Site α) : Prop := e.address <+: f.address ∧ e.address ≠ f.address

instance (e f : Site α) : Decidable (e.IsAbove f) := inferInstanceAs (Decidable (_ ∧ _))

theorem Site.not_isAbove_self (e : Site α) : ¬ e.IsAbove e := fun h => h.2 rfl

theorem Site.IsAbove.trans {e f g : Site α} (h : e.IsAbove f) (h' : f.IsAbove g) : e.IsAbove g := by
  refine ⟨h.1.trans h'.1, fun heq => h'.2 ?_⟩
  exact h'.1.eq_of_length_le (heq ▸ h.1.length_le)

mutual

/-- The sites of a tree that stands at an address below a label. -/
def sites (address : List Nat) (parent : Option α) : Tree α → Tree (Site α)
  | node a ts => node ⟨address, a, parent⟩ (sitesFrom address a 0 ts)

/-- The sites of trees below a label, the first of them at child index `i`. -/
def sitesFrom (address : List Nat) (parent : α) (i : Nat) : List (Tree α) → List (Tree (Site α))
  | [] => []
  | t :: ts => sites (address ++ [i]) (some parent) t :: sitesFrom address parent (i + 1) ts

end

/-- The subtree at an address. -/
def sub? : Tree α → List Nat → Option (Tree α)
  | t, [] => some t
  | t, i :: rest => t.children[i]?.bind (sub? · rest)

/-- What holds of a tree when it holds of the trees right below its root holds of all trees. -/
@[elab_as_elim, induction_eliminator]
theorem induct {motive : Tree α → Prop}
    (node : ∀ a ts, (∀ t ∈ ts, motive t) → motive (.node a ts)) : ∀ t, motive t
  | .node a ts => node a ts fun t _ => induct node t

variable {t : Tree α} {ts : List (Tree α)} {a : α} {address : List Nat} {parent : Option α} {i : Nat}

/-! ## Labels in order -/

mutual

/-- The sites in document order have the labels of the tree in document order. -/
theorem map_label_preorder_sites (address : List Nat) (parent : Option α) : ∀ t : Tree α,
    (t.sites address parent).preorder.map Site.label = t.preorder
  | node a ts => by
    rw [sites, preorder, preorder, List.map_cons, map_label_preorderOf_sitesFrom address a 0 ts]

theorem map_label_preorderOf_sitesFrom (address : List Nat) (a : α) (i : Nat) :
    ∀ ts : List (Tree α), (preorderOf (sitesFrom address a i ts)).map Site.label = preorderOf ts
  | [] => rfl
  | t :: ts => by
    rw [sitesFrom, preorderOf, preorderOf, List.map_append, map_label_preorder_sites _ _ t,
      map_label_preorderOf_sitesFrom address a (i + 1) ts]

end

mutual

/-- The sites from the leaves up have the labels of the tree from the leaves up. -/
theorem map_label_postorder_sites (address : List Nat) (parent : Option α) : ∀ t : Tree α,
    (t.sites address parent).postorder.map Site.label = t.postorder
  | node a ts => by
    rw [sites, postorder, postorder, List.map_append, map_label_postorderOf_sitesFrom address a 0 ts]
    rfl

theorem map_label_postorderOf_sitesFrom (address : List Nat) (a : α) (i : Nat) :
    ∀ ts : List (Tree α), (postorderOf (sitesFrom address a i ts)).map Site.label = postorderOf ts
  | [] => rfl
  | t :: ts => by
    rw [sitesFrom, postorderOf, postorderOf, List.map_append, map_label_postorder_sites _ _ t,
      map_label_postorderOf_sitesFrom address a (i + 1) ts]

end

mutual

/-- Both orders have the same labels. -/
theorem postorder_perm : ∀ t : Tree α, t.postorder.Perm t.preorder
  | node a ts => by
    rw [postorder, preorder]
    exact (List.perm_append_singleton a _).trans ((postorderOf_perm ts).cons a)

theorem postorderOf_perm : ∀ ts : List (Tree α), (postorderOf ts).Perm (preorderOf ts)
  | [] => .refl _
  | t :: ts => (postorder_perm t).append (postorderOf_perm ts)

end

/-! ## The sites of a tree -/

theorem mem_preorderOf_sitesFrom {e : Site α} :
    e ∈ preorderOf (sitesFrom address a i ts) ↔
      ∃ (j : Nat) (t : Tree α), ts[j]? = some t ∧
        e ∈ (t.sites (address ++ [i + j]) (some a)).preorder := by
  induction ts generalizing i with
  | nil => simp [sitesFrom, preorderOf]
  | cons t rest ih =>
    rw [sitesFrom, preorderOf, List.mem_append, ih]
    constructor
    · rintro (h | ⟨j, u, hj, h⟩)
      · exact ⟨0, t, rfl, h⟩
      · exact ⟨j + 1, u, hj, by rwa [Nat.add_right_comm] at h⟩
    · rintro ⟨j, u, hj, h⟩
      cases j with
      | zero =>
        cases hj
        exact .inl h
      | succ j => exact .inr ⟨j, u, hj, by rwa [Nat.add_right_comm]⟩

/-- The site of a subtree at an address below the root. -/
def siteAt (t u : Tree α) (address : List Nat) (parent : Option α) (below : List Nat) : Site α :=
  ⟨address ++ below, u.label, if below = [] then parent else (t.sub? below.dropLast).map label⟩

/-- The sites of a tree are those of its subtrees. -/
theorem mem_preorder_sites {e : Site α} :
    e ∈ (t.sites address parent).preorder ↔
      ∃ below u, t.sub? below = some u ∧ e = t.siteAt u address parent below := by
  induction t generalizing address parent with
  | node a ts ih =>
    rw [sites, preorder, List.mem_cons, mem_preorderOf_sitesFrom]
    -- Below a child, the way from the root is one step longer.
    have hstep : ∀ {i t u below}, ts[i]? = some t →
        t.siteAt u (address ++ [0 + i]) (some a) below = (node a ts).siteAt u address parent (i :: below) := by
      intro i t u below hi
      cases below with
      | nil => simp [siteAt, sub?, label]
      | cons j more => simp [siteAt, sub?, hi, children]
    constructor
    · rintro (rfl | ⟨i, t, hi, he⟩)
      · exact ⟨[], node a ts, rfl, by simp [siteAt, label]⟩
      · obtain ⟨below, u, hu, rfl⟩ := (ih t (List.mem_of_getElem? hi)).mp he
        exact ⟨i :: below, u, by simp [sub?, children, hi, hu], hstep hi⟩
    · rintro ⟨below, u, hu, rfl⟩
      cases below with
      | nil =>
        cases hu
        exact .inl (by simp [siteAt, label])
      | cons i more =>
        obtain ⟨t, hi, hu⟩ := Option.bind_eq_some_iff.mp hu
        exact .inr ⟨i, t, hi, (ih t (List.mem_of_getElem? hi)).mpr ⟨more, u, hu, (hstep hi).symm⟩⟩

/-- All sites of a tree are at its address or below. -/
theorem prefix_of_mem_sites {e : Site α} (h : e ∈ (t.sites address parent).preorder) :
    address <+: e.address := by
  obtain ⟨below, u, -, rfl⟩ := mem_preorder_sites.mp h
  exact List.prefix_append address below

theorem exists_prefix_of_mem_sitesFrom {e : Site α}
    (h : e ∈ preorderOf (sitesFrom address a i ts)) :
    ∃ j, i ≤ j ∧ address ++ [j] <+: e.address := by
  obtain ⟨j, t, -, he⟩ := mem_preorderOf_sitesFrom.mp h
  exact ⟨i + j, Nat.le_add_right i j, prefix_of_mem_sites he⟩

/-- No address is below two children. -/
theorem eq_of_prefix {b : List Nat} {j k : Nat} (hj : address ++ [j] <+: b)
    (hk : address ++ [k] <+: b) : j = k := by
  have hprefix := List.prefix_of_prefix_length_le hj hk (by simp)
  have heq := hprefix.eq_of_length (by simp)
  simpa using heq

mutual

/-- In document order no site comes behind one that stands at its address or below. -/
theorem pairwise_sites (address : List Nat) (parent : Option α) : ∀ t : Tree α,
    (t.sites address parent).preorder.Pairwise fun e f => ¬ f.address <+: e.address
  | node a ts => by
    rw [sites, preorder]
    refine .cons (fun f hf hprefix => ?_) (pairwise_sitesFrom address a 0 ts)
    obtain ⟨j, -, hj⟩ := exists_prefix_of_mem_sitesFrom hf
    have hle := (hj.trans hprefix).length_le
    rw [List.length_append, List.length_singleton] at hle
    exact absurd hle (Nat.not_succ_le_self _)

theorem pairwise_sitesFrom (address : List Nat) (a : α) (i : Nat) : ∀ ts : List (Tree α),
    (preorderOf (sitesFrom address a i ts)).Pairwise fun e f => ¬ f.address <+: e.address
  | [] => .nil
  | t :: ts => by
    rw [sitesFrom, preorderOf]
    refine List.pairwise_append.mpr
      ⟨pairwise_sites _ _ t, pairwise_sitesFrom address a (i + 1) ts, fun e he f hf hprefix => ?_⟩
    -- The second stands below a later child.
    obtain ⟨j, hle, hj⟩ := exists_prefix_of_mem_sitesFrom hf
    have hij := eq_of_prefix (prefix_of_mem_sites he) (hj.trans hprefix)
    omega

end

/-- Every address occurs once. -/
theorem nodup_address_sites (address : List Nat) (parent : Option α) (t : Tree α) :
    ((t.sites address parent).preorder.map Site.address).Nodup := by
  refine List.pairwise_map.mpr ((pairwise_sites address parent t).imp ?_)
  rintro e f hnot heq
  exact hnot (heq ▸ List.prefix_refl _)

end Tree

/-! ## The nodes of a document tree -/

namespace Node

open LatexMarkdown.Tree (Site)

variable {P : Type}

/-- The nodes from a node down with their addresses and the nodes right above them. -/
def sites (root : Node P) : Tree (Site (Node P)) := root.tree.sites [] none

theorem sub?_tree (root : Node P) (address : List Nat) :
    root.tree.sub? address = (root.atAddress? address).map tree := by
  induction address generalizing root with
  | nil => rfl
  | cons i rest ih =>
    rw [Tree.sub?, children_tree, List.getElem?_map, atAddress?]
    cases root.children[i]? with
    | none => rfl
    | some child => exact ih child

theorem atAddress?_append (root : Node P) (address below : List Nat) :
    root.atAddress? (address ++ below) = (root.atAddress? address).bind (·.atAddress? below) := by
  induction address generalizing root with
  | nil => rfl
  | cons i rest ih =>
    rw [List.cons_append, atAddress?, atAddress?]
    cases root.children[i]? with
    | none => rfl
    | some child => exact ih child

/-- A site is as the tree has it: the node is the one at its address, and the node right above it the
one at the address that is a step shorter. -/
structure HasSite (root : Node P) (e : Site (Node P)) : Prop where
  label : root.atAddress? e.address = some e.label
  parent : e.parent = if e.address = [] then none else root.atAddress? e.address.dropLast

/-- The sites from a node down are all nodes that have an address, each with the node above it. -/
theorem mem_sites {root : Node P} {e : Site (Node P)} :
    e ∈ root.sites.preorder ↔ root.HasSite e := by
  have hparent : ∀ address : List Nat, (root.tree.sub? address).map Tree.label
      = root.atAddress? address := by
    intro address
    rw [sub?_tree, Option.map_map]
    cases root.atAddress? address with
    | none => rfl
    | some n => exact congrArg some n.label_tree
  rw [sites, Tree.mem_preorder_sites]
  constructor
  · rintro ⟨address, u, hu, rfl⟩
    refine ⟨?_, ?_⟩
    · rw [← hparent]
      simp [Tree.siteAt, hu]
    · simp [Tree.siteAt, hparent]
  · rintro ⟨hlabel, hparent'⟩
    refine ⟨e.address, e.label.tree, by rw [sub?_tree, hlabel]; rfl, ?_⟩
    cases e with
    | mk address label parent =>
      simp only at hparent'
      simp [Tree.siteAt, hparent, hparent', label_tree]

theorem mem_sites_root (root : Node P) : ⟨[], root, none⟩ ∈ root.sites.preorder :=
  mem_sites.mpr ⟨rfl, rfl⟩

theorem label_eq_of_address_eq {root : Node P} {e f : Site (Node P)} (he : e ∈ root.sites.preorder)
    (hf : f ∈ root.sites.preorder) (h : e.address = f.address) : e.label = f.label := by
  have hlabel := (mem_sites.mp he).label
  rw [h, (mem_sites.mp hf).label] at hlabel
  exact (Option.some.inj hlabel).symm

/-- A child of a node has a site, and what stands above that is at the node or above. -/
theorem exists_site_of_mem_children {root : Node P} {e : Site (Node P)}
    (he : e ∈ root.sites.preorder) {c : Node P} (hc : c ∈ e.label.children) :
    ∃ f ∈ root.sites.preorder, e.IsAbove f ∧ f.label = c ∧
      ∀ {g : Site (Node P)}, g.IsAbove f → g.address <+: e.address := by
  obtain ⟨i, hi⟩ := List.getElem?_of_mem hc
  have hlabel := (mem_sites.mp he).label
  have hchild : root.atAddress? (e.address ++ [i]) = some c := by
    rw [atAddress?_append, hlabel]
    simp [atAddress?, hi]
  refine ⟨⟨e.address ++ [i], c, some e.label⟩, mem_sites.mpr ⟨hchild, by simp [hlabel]⟩,
    ⟨List.prefix_append _ _, by simp⟩, rfl, fun habove => ?_⟩
  exact (List.prefix_concat_iff.mp habove.1).resolve_left habove.2

theorem nodup_address_sites (root : Node P) : (root.sites.preorder.map Site.address).Nodup :=
  Tree.nodup_address_sites [] none root.tree

end Node

end LatexMarkdown
