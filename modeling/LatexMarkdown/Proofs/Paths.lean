import LatexMarkdown.Proofs.Walks.Sites
import Mathlib.Data.List.Induction
import Mathlib.Data.List.Chain
/-!
  The way from the root of a document tree to one of its nodes, and the node right above it.

  `Node.pathTo` searches from the root down and comes back from every child below which the node meant
  does not stand.  All of the search shares one stack; where it fails it leaves the stack as it was, and
  else it puts the path to what was found on it (`Tree.search_eq`).  A child that does not lead to the node
  meant adds nothing (`Tree.path?_located_of_not_prefix`), so what is found is the way that the address
  tells (`Tree.path?_located`), and a step further down it has one node more at its end
  (`Node.pathTo_concat`).

  Which node is meant is told by its address, so every node occurs once in its tree, however many are
  equal to it.  Main statement: `pathTo_parentOf?_exact`.
-/
namespace LatexMarkdown

open LatexMarkdown.Tree (Site)

/-! ## The search in a tree -/

namespace Tree

variable {α : Type} {t : Tree α} {ts : List (Tree α)} {p : α → Bool} {base address : List Nat}

mutual

/-- The labels from the root to the first one, root first, that satisfies `p`. -/
def path? (p : α → Bool) : Tree α → Option (List α)
  | node a ts => if p a then some [a] else (pathIn? p ts).map (a :: ·)

/-- The labels from the root of one of several trees to the first that satisfies `p`. -/
def pathIn? (p : α → Bool) : List (Tree α) → Option (List α)
  | [] => none
  | t :: ts => (path? p t).or (pathIn? p ts)

end

theorem searchIn_eq {stack : List α} (h : ∀ t ∈ ts, t.search p stack
      = (t.path? p).elim (false, stack) fun path => (true, path.reverse ++ stack)) :
    searchIn p ts stack
      = (pathIn? p ts).elim (false, stack) fun path => (true, path.reverse ++ stack) := by
  induction ts with
  | nil => rfl
  | cons t rest ih =>
    rw [List.forall_mem_cons] at h
    rw [searchIn, pathIn?, h.1]
    cases t.path? p with
    | none => exact ih h.2
    | some path => rfl

/-- A search that fails leaves the stack as it was; one that finds a label puts the path to it on top. -/
theorem search_eq (p : α → Bool) (t : Tree α) (stack : List α) : t.search p stack
    = (t.path? p).elim (false, stack) fun path => (true, path.reverse ++ stack) := by
  induction t generalizing stack with
  | node a ts ih =>
    rw [search, path?]
    by_cases ha : p a = true
    · rw [if_pos ha, if_pos ha]
      rfl
    · rw [if_neg ha, if_neg ha, searchIn_eq fun t ht => ih t ht (a :: stack)]
      cases pathIn? p ts with
      | none => rfl
      | some path => simp

/-- The labels from the root of a tree down to an address. -/
def way? : Tree α → List Nat → Option (List α)
  | t, [] => some [t.label]
  | t, i :: rest => (t.children[i]?.bind (way? · rest)).map (t.label :: ·)

/-- One step further down the way has one label more. -/
theorem way?_concat (t : Tree α) (address : List Nat) (i : Nat) :
    t.way? (address ++ [i])
      = (t.way? address).bind fun path =>
          (t.sub? (address ++ [i])).map fun u => path ++ [u.label] := by
  induction address generalizing t with
  | nil =>
    simp only [List.nil_append, way?, sub?, Option.bind_some]
    cases t.children[i]? <;> rfl
  | cons j rest ih =>
    simp only [List.cons_append, way?, sub?]
    cases t.children[j]? with
    | none => rfl
    | some u =>
      simp only [Option.bind_some, ih]
      cases u.way? rest with
      | none => rfl
      | some path => cases u.sub? (rest ++ [i]) <;> rfl

/-- There is a way to an address just when a subtree stands there. -/
theorem way?_eq_none_iff : t.way? address = none ↔ t.sub? address = none := by
  induction address generalizing t with
  | nil => simp [way?, sub?]
  | cons i rest ih =>
    rw [way?, sub?, Option.map_eq_none_iff]
    cases t.children[i]? with
    | none => simp
    | some u => exact ih

theorem ne_nil_of_way? {path : List α} (h : t.way? address = some path) : path ≠ [] := by
  cases address with
  | nil =>
    cases h
    exact List.cons_ne_nil _ _
  | cons i rest =>
    obtain ⟨more, -, rfl⟩ := Option.map_eq_some_iff.mp h
    exact List.cons_ne_nil _ _

theorem pathIn?_eq_none (h : ∀ t ∈ ts, t.path? p = none) : pathIn? p ts = none := by
  induction ts with
  | nil => rfl
  | cons t rest ih =>
    rw [pathIn?, h t List.mem_cons_self, Option.none_or]
    exact ih fun u hu => h u (List.mem_cons_of_mem t hu)

/-- A search that finds nothing in any other tree finds what there is in the `k`th. -/
theorem pathIn?_of_only {k : Nat} (h : ∀ i t, ts[i]? = some t → i ≠ k → t.path? p = none) :
    pathIn? p ts = ts[k]?.bind (path? p) := by
  induction ts generalizing k with
  | nil => rfl
  | cons t rest ih =>
    rw [pathIn?]
    cases k with
    | zero =>
      have hrest : pathIn? p rest = none := by
        refine pathIn?_eq_none fun u hu => ?_
        obtain ⟨i, hi⟩ := List.getElem?_of_mem hu
        exact h (i + 1) u hi (Nat.succ_ne_zero i)
      rw [hrest, List.getElem?_cons_zero, Option.bind_some, Option.or_none]
    | succ k =>
      rw [h 0 t rfl (Nat.succ_ne_zero k).symm, Option.none_or, List.getElem?_cons_succ]
      exact ih fun i u hi hne => h (i + 1) u hi fun heq => hne (Nat.succ.inj heq)

theorem path?_eq_none (h : ∀ a, p a = false) : t.path? p = none := by
  induction t with
  | node a ts ih =>
    rw [path?, h a, pathIn?_eq_none ih]
    rfl

theorem getElem?_locatedFrom (base : List Nat) (i k : Nat) (ts : List (Tree α)) :
    (locatedFrom base i ts)[k]? = ts[k]?.map (located ((i + k) :: base)) := by
  induction ts generalizing i k with
  | nil => rfl
  | cons t rest ih =>
    rw [locatedFrom]
    cases k with
    | zero => rfl
    | succ k => rw [List.getElem?_cons_succ, List.getElem?_cons_succ, ih, Nat.add_right_comm, Nat.add_assoc]

/-- Is it the label whose address is the target? -/
def isAt (target : Option (List Nat)) (x : List Nat × α) : Bool := target == some x.1.reverse

/-- Nothing is found in a tree whose own address does not lead to the target. -/
theorem path?_located_of_not_prefix (h : ¬ base.reverse <+: address) :
    (t.located base).path? (isAt (some address)) = none := by
  induction t generalizing base with
  | node a ts ih =>
    have hroot : isAt (some address) (base, a) = false := by
      refine Bool.eq_false_iff.mpr fun hat => h ?_
      obtain rfl : address = base.reverse := Option.some.inj (beq_iff_eq.mp hat)
      exact List.prefix_rfl
    have hbelow : pathIn? (isAt (some address)) (locatedFrom base 0 ts) = none := by
      refine pathIn?_eq_none fun u hu => ?_
      obtain ⟨k, hk⟩ := List.getElem?_of_mem hu
      rw [getElem?_locatedFrom, Option.map_eq_some_iff] at hk
      obtain ⟨t, ht, rfl⟩ := hk
      refine ih t (List.mem_of_getElem? ht) fun hprefix => h ?_
      rw [List.reverse_cons] at hprefix
      exact (List.prefix_append _ _).trans hprefix
    rw [located, path?, hroot, hbelow]
    rfl

/-- The search for an address finds the way to it, in a tree that stands at `base`. -/
theorem path?_located (t : Tree α) (base address : List Nat) :
    ((t.located base).path? (isAt (some (base.reverse ++ address)))).map (List.map Prod.snd)
      = t.way? address := by
  induction address generalizing t base with
  | nil =>
    cases t with
    | node a ts => simp [located, path?, isAt, way?, label]
  | cons i rest ih =>
    cases t with
    | node a ts =>
      have hroot : isAt (some (base.reverse ++ i :: rest)) (base, a) = false := by
        simp [isAt]
      -- Only the child on the way stands above the target.
      have honly : ∀ k u, (locatedFrom base 0 ts)[k]? = some u → k ≠ i →
          u.path? (isAt (some (base.reverse ++ i :: rest))) = none := by
        intro k u hk hne
        rw [getElem?_locatedFrom, Option.map_eq_some_iff] at hk
        obtain ⟨t, -, rfl⟩ := hk
        refine path?_located_of_not_prefix fun hprefix => hne ?_
        rw [List.reverse_cons, Nat.zero_add] at hprefix
        exact eq_of_prefix hprefix ⟨rest, by simp⟩
      rw [located, path?, hroot, pathIn?_of_only honly, getElem?_locatedFrom, way?, children]
      cases ts[i]? with
      | none => rfl
      | some t =>
        have hchild := ih t (i :: base)
        rw [List.reverse_cons, List.append_assoc, List.singleton_append] at hchild
        rw [Option.bind_some, ← hchild]
        simp [Function.comp_def, label]

end Tree

/-! ## Paths and parents of nodes -/

namespace Tree.Site

variable {P : Type}

/-- The second site is the one of a child that the first has. -/
def HasChild (f e : Site (Node P)) : Prop :=
  ∃ i, e.address = f.address ++ [i] ∧ f.label.children[i]? = some e.label

end Tree.Site

namespace Node

variable {P : Type} {root : Node P} {e f : Site (Node P)} {target : Address}

/-- The sites from the root of a tree to one of them, each with the site of a child behind it. -/
structure IsWayTo (root : Node P) (e : Site (Node P)) (way : List (Site (Node P))) : Prop where
  head : way.head? = some ⟨[], root, none⟩
  last : way.getLast? = some e
  steps : way.IsChain Site.HasChild

theorem pathTo_eq (root : Node P) (target : Address) :
    root.pathTo target
      = (((root.tree.located []).path? (Tree.isAt target)).map (List.map Prod.snd)).getD [] := by
  have hsearch : (root.tree.located []).search (fun x => target == some x.1.reverse) [] = _ :=
    Tree.search_eq (Tree.isAt target) _ _
  rw [pathTo, hsearch]
  cases (root.tree.located []).path? (Tree.isAt target) with
  | none => rfl
  | some path => simp

theorem pathTo_none (root : Node P) : root.pathTo none = [] := by
  have hsearch : (root.tree.located []).path? (Tree.isAt none) = none :=
    Tree.path?_eq_none fun _ => rfl
  rw [pathTo_eq, hsearch]
  rfl

theorem pathTo_some (root : Node P) (address : List Nat) :
    root.pathTo (some address) = (root.tree.way? address).getD [] := by
  rw [pathTo_eq, ← Tree.path?_located root.tree [] address]
  rfl

theorem pathTo_root (root : Node P) : root.pathTo (some []) = [root] := by
  rw [pathTo_some, Tree.way?, label_tree]
  rfl

theorem hasSite_of_atAddress? {address : List Nat} {m : Node P}
    (h : root.atAddress? address = some m) :
    root.HasSite ⟨address, m, if address = [] then none else root.atAddress? address.dropLast⟩ :=
  ⟨h, rfl⟩

/-- The path is empty just when the node meant is not in the tree. -/
theorem pathTo_eq_nil_iff :
    root.pathTo target = [] ↔ ∀ e, root.HasSite e → target ≠ some e.address := by
  cases target with
  | none => simp [pathTo_none]
  | some address =>
    have hsub : root.tree.way? address = none ↔ root.atAddress? address = none := by
      rw [Tree.way?_eq_none_iff, sub?_tree, Option.map_eq_none_iff]
    rw [pathTo_some]
    constructor
    · rintro hnil e he haddress
      cases hway : root.tree.way? address with
      | none =>
        rw [hsub, Option.some.inj haddress, he.label] at hway
        cases hway
      | some path => exact Tree.ne_nil_of_way? hway (by simpa [hway] using hnil)
    · intro hnone
      cases hm : root.atAddress? address with
      | none => rw [hsub.mpr hm, Option.getD_none]
      | some m => exact absurd rfl (hnone _ (hasSite_of_atAddress? hm))

/-- The path to a child is the path to the node with the child at its end. -/
theorem pathTo_concat {address : List Nat} {i : Nat} {m c : Node P}
    (hm : root.atAddress? address = some m) (hc : m.children[i]? = some c) :
    root.pathTo (some (address ++ [i])) = root.pathTo (some address) ++ [c] := by
  have hsub : root.tree.sub? (address ++ [i]) = some c.tree := by
    rw [sub?_tree, atAddress?_append, hm]
    simp [atAddress?, hc]
  cases hway : root.tree.way? address with
  | none =>
    rw [Tree.way?_eq_none_iff, sub?_tree, hm] at hway
    cases hway
  | some path =>
    rw [pathTo_some, pathTo_some, Tree.way?_concat, hway, hsub, Option.bind_some, Option.map_some,
      label_tree]
    rfl

/-! ### Sites one above the other -/

theorem HasSite.eq_of_address_eq (he : root.HasSite e) (hf : root.HasSite f)
    (h : e.address = f.address) : e = f := by
  have hlabel : e.label = f.label := label_eq_of_address_eq (mem_sites.mpr he) (mem_sites.mpr hf) h
  have hparent : e.parent = f.parent := by rw [he.parent, hf.parent, h]
  cases e
  cases f
  simp_all

theorem HasSite.eq_root (he : root.HasSite e) (h : e.address = []) : e = ⟨[], root, none⟩ :=
  he.eq_of_address_eq ⟨rfl, rfl⟩ h

/-- Every other node than the root is a child of one node of the tree. -/
theorem HasSite.exists_parent (he : root.HasSite e) (hne : e.address ≠ []) :
    ∃ f, root.HasSite f ∧ f.HasChild e := by
  obtain ⟨address, i, heq⟩ := (List.eq_nil_or_concat' e.address).resolve_left hne
  have hlabel := he.label
  rw [heq, atAddress?_append] at hlabel
  obtain ⟨m, hm, hchild⟩ := Option.bind_eq_some_iff.mp hlabel
  have hchild : m.children[i]? = some e.label := by
    rw [atAddress?] at hchild
    cases hc : m.children[i]? with
    | none => simp [hc] at hchild
    | some c => simpa [hc, atAddress?] using hchild
  exact ⟨_, hasSite_of_atAddress? hm, i, heq, hchild⟩

/-- No node is a child of two. -/
theorem HasSite.parent_unique {g : Site (Node P)} (hf : root.HasSite f) (hg : root.HasSite g)
    (hfe : f.HasChild e) (hge : g.HasChild e) : g = f := by
  obtain ⟨i, hi, -⟩ := hfe
  obtain ⟨j, hj, -⟩ := hge
  exact hg.eq_of_address_eq hf (List.append_inj_left' (hj.symm.trans hi) rfl)

theorem HasSite.pathTo_eq (hf : root.HasSite f) (hchild : f.HasChild e) :
    root.pathTo (some e.address) = root.pathTo (some f.address) ++ [e.label] := by
  obtain ⟨i, heq, hi⟩ := hchild
  rw [heq, pathTo_concat hf.label hi]

/-- The path to a node of the tree is a way to its site. -/
theorem HasSite.exists_way (he : root.HasSite e) :
    ∃ way, root.IsWayTo e way ∧ root.pathTo (some e.address) = way.map Site.label := by
  induction haddress : e.address using List.reverseRecOn generalizing e with
  | nil =>
    obtain rfl := he.eq_root haddress
    exact ⟨[⟨[], root, none⟩], ⟨rfl, rfl, .singleton _⟩, pathTo_root root⟩
  | append_singleton address i ih =>
    obtain ⟨f, hf, hchild⟩ := he.exists_parent (by simp [haddress])
    have hf' : f.address = address := by
      obtain ⟨j, hj, -⟩ := hchild
      exact (List.append_inj_left' (hj.symm.trans haddress) rfl)
    obtain ⟨way, hway, hpath⟩ := ih hf hf'
    refine ⟨way ++ [e], ⟨?_, List.getLast?_concat, ?_⟩, ?_⟩
    · rw [List.head?_append, hway.head]
      rfl
    · refine List.isChain_append.mpr ⟨hway.steps, .singleton e, fun g hg d hd => ?_⟩
      rw [hway.last] at hg
      cases hg
      cases hd
      exact hchild
    · rw [← haddress, hf.pathTo_eq hchild, hf', hpath, List.map_append]
      rfl

/-- The parent of a child is the node that has it. -/
theorem HasSite.parentOf?_eq (hf : root.HasSite f) (hchild : f.HasChild e) :
    root.parentOf? (some e.address) = some f.label := by
  obtain ⟨way, hway, hpath⟩ := hf.exists_way
  obtain ⟨front, rfl⟩ := List.getLast?_eq_some_iff.mp hway.last
  rw [parentOf?, hf.pathTo_eq hchild, hpath]
  simp

/-- A node has no parent just when it is the root or not in the tree. -/
theorem parentOf?_eq_none_iff : root.parentOf? target = none ↔
    target = some [] ∨ ∀ e, root.HasSite e → target ≠ some e.address := by
  constructor
  · intro h
    by_contra hnot
    obtain ⟨hroot, hsite⟩ := not_or.mp hnot
    obtain ⟨e, he, rfl⟩ : ∃ e, root.HasSite e ∧ target = some e.address := by
      simpa using hsite
    obtain ⟨f, hf, hchild⟩ := he.exists_parent fun hnil => hroot (by rw [hnil])
    rw [hf.parentOf?_eq hchild] at h
    cases h
  · rintro (rfl | hnone)
    · rw [parentOf?, pathTo_root]
      rfl
    · rw [parentOf?, pathTo_eq_nil_iff.mpr hnone]
      rfl

/-- Paths and parents are exact.  The path to a node is empty just when the node is not in the tree; else
it begins at the root, ends at the node, and each node on it is a child of the one before.  The root and
what is not in the tree have no parent; any other node has the one node of the tree whose children it is
among, and the children of a list item are its inline content and its blocks. -/
theorem pathTo_parentOf?_exact (root : Node P) :
    (∀ target, root.pathTo target = [] ↔ ∀ e, root.HasSite e → target ≠ some e.address) ∧
    (∀ e, root.HasSite e →
      ∃ way, root.IsWayTo e way ∧ root.pathTo (some e.address) = way.map Site.label) ∧
    (∀ target, root.parentOf? target = none ↔
      target = some [] ∨ ∀ e, root.HasSite e → target ≠ some e.address) ∧
    (∀ e, root.HasSite e → e.address ≠ [] → ∃ f, (∀ g, root.HasSite g ∧ g.HasChild e ↔ g = f) ∧
      root.parentOf? (some e.address) = some f.label) ∧
    ∀ f item, root.HasSite f → f.label = .listItem item →
      ∀ (i : Nat) c, (item.children.map inline ++ item.blocks.map block)[i]? = some c →
        root.atAddress? (f.address ++ [i]) = some c ∧
          root.parentOf? (some (f.address ++ [i])) = some (.listItem item) := by
  refine ⟨fun _ => pathTo_eq_nil_iff, fun _ he => he.exists_way, fun _ => parentOf?_eq_none_iff,
    fun e he hne => ?_, fun f item hf hitem i c hc => ?_⟩
  · obtain ⟨f, hf, hchild⟩ := he.exists_parent hne
    refine ⟨f, fun g => ⟨fun ⟨hg, hgchild⟩ => hf.parent_unique hg hchild hgchild, ?_⟩,
      hf.parentOf?_eq hchild⟩
    rintro rfl
    exact ⟨hf, hchild⟩
  · have hchild : f.HasChild ⟨f.address ++ [i], c, some f.label⟩ := ⟨i, rfl, by rw [hitem]; exact hc⟩
    refine ⟨?_, hitem ▸ hf.parentOf?_eq hchild⟩
    rw [atAddress?_append, hf.label, hitem]
    simp only [Option.bind_some, atAddress?]
    rw [show (listItem item).children[i]? = some c from hc]

/-- The paragraph in the second item of a list whose first item is equal to it. -/
theorem pathTo_parentOf?_sample :
    let text : Inline := .text (.span 0 1) [0x61]
    let paragraph : Block := .paragraph (.span 0 1) [text]
    let item : ListItem := ⟨.span 0 1, [text], [paragraph]⟩
    let root : Node := .block (.list (.span 0 1) false [item, item])
    let f : Site Node := ⟨[1], .listItem item, some root⟩
    let e : Site Node := ⟨[1, 1], .block paragraph, some (.listItem item)⟩
    (root.HasSite e ∧ ∃ way, root.IsWayTo e way ∧ root.pathTo (some [1, 1]) = way.map Site.label) ∧
    (e.address ≠ [] ∧ ∃ f, (∀ g, root.HasSite g ∧ g.HasChild e ↔ g = f) ∧
      root.parentOf? (some [1, 1]) = some f.label) ∧
    (root.HasSite f ∧ root.atAddress? [1, 1] = some (.block paragraph) ∧
      root.parentOf? (some [1, 1]) = some (.listItem item)) := by
  intro text paragraph item root f e
  have he : root.HasSite e := ⟨rfl, rfl⟩
  have hf : root.HasSite f := ⟨rfl, rfl⟩
  have hne : e.address ≠ [] := List.cons_ne_nil _ _
  obtain ⟨-, hpath, -, hparent, hitems⟩ := pathTo_parentOf?_exact root
  exact ⟨⟨he, hpath e he⟩, ⟨hne, hparent e he hne⟩, hf, hitems f item hf rfl 1 _ rfl⟩

end Node

end LatexMarkdown
