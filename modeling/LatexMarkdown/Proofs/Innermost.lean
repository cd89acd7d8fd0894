import LatexMarkdown.Proofs.Walks
/-!
  The node found at an offset.

  `Node.at?` goes down into the nodes that contain the offset and keeps the last one.  A node is called
  on just when all nodes above it contain the offset, so it is found when no node behind it in document
  order contains the offset along with all nodes above.  Its children come behind it, so they do not
  contain the offset either.  Nothing is asked of the spans: children may overlap or stick out of the
  node above.

  An offset is turned away when it lies before or behind the root.  What is no number lies nowhere: it is
  not turned away, no node contains it, and the root is what the search began with.

  Main statement: `at?_eq_some_iff_isInnermost`.
-/
namespace LatexMarkdown.Node

open LatexMarkdown.Tree (Site)

variable {P : Type} [LE P] [DecidableLE P] {root : Node P} {offset : P} {e : Site (Node P)}

/-! ## The last of a list -/

section Last

variable {ε α : Type} {p : ε → Prop} {es : List ε}

/-- Where a list has entries of some kind, one of them is the last. -/
theorem exists_last (h : ∃ e ∈ es, p e) :
    ∃ before e after, es = before ++ e :: after ∧ p e ∧ ∀ f ∈ after, ¬ p f := by
  induction es with
  | nil => simp at h
  | cons e rest ih =>
    by_cases hrest : ∃ f ∈ rest, p f
    · obtain ⟨before, f, after, rfl, hf, hafter⟩ := ih hrest
      exact ⟨e :: before, f, after, rfl, hf, hafter⟩
    · have hnone : ∀ f ∈ rest, ¬ p f := fun f hf hp => hrest ⟨f, hf, hp⟩
      obtain ⟨f, hf, hp⟩ := h
      rcases List.mem_cons.mp hf with rfl | hf
      · exact ⟨[], f, rest, rfl, hp, hnone⟩
      · exact absurd hp (hnone f hf)

/-- What keeps the entries of some kind as they come ends with the last. -/
theorem foldl_of_last [DecidablePred p] {f : ε → α} {e : ε} {before after : List ε} (he : p e)
    (hafter : ∀ g ∈ after, ¬ p g) (found : α) :
    (before ++ e :: after).foldl (fun found g => if p g then f g else found) found = f e := by
  rw [List.foldl_append, List.foldl_cons, if_pos he]
  generalize f e = last
  induction after with
  | nil => rfl
  | cons g rest ih =>
    rw [List.foldl_cons, if_neg (hafter g List.mem_cons_self)]
    exact ih fun g hg => hafter g (List.mem_cons_of_mem _ hg)

end Last

/-! ## Nodes that contain an offset -/

/-- Do a node and all nodes above it contain the offset? -/
def CoversDownTo (root : Node P) (offset : P) (e : Site (Node P)) : Prop :=
  ∀ f ∈ root.sites.preorder, f.address <+: e.address → f.label.covers offset

instance : DecidablePred (root.CoversDownTo offset) := fun _ =>
  inferInstanceAs (Decidable (∀ f ∈ root.sites.preorder, _))

/-- A node contains the offset along with all nodes above it, its children do not contain it, and of
the nodes behind it in document order none contains it along with all nodes above. -/
structure IsInnermost (root : Node P) (offset : P) (e : Site (Node P)) : Prop where
  covered : root.CoversDownTo offset e
  childless : ∀ c ∈ e.label.children, ¬ c.covers offset
  last : ∃ before after, root.sites.preorder = before ++ e :: after ∧
    ∀ f ∈ after, ¬ root.CoversDownTo offset f

/-- A node contains the offset along with all nodes above it when it does and they do. -/
theorem coversDownTo_iff (he : e ∈ root.sites.preorder) : root.CoversDownTo offset e ↔
    (∀ f ∈ root.sites.preorder, f.IsAbove e → f.label.covers offset) ∧ e.label.covers offset := by
  constructor
  · exact fun h => ⟨fun f hf habove => h f hf habove.1, h e he (List.prefix_refl _)⟩
  · rintro ⟨habove, hcovers⟩ f hf hbelow
    by_cases haddress : f.address = e.address
    · rwa [label_eq_of_address_eq hf he haddress]
    · exact habove f hf ⟨hbelow, haddress⟩

theorem coversDownTo_root (root : Node P) (offset : P) :
    root.CoversDownTo offset ⟨[], root, none⟩ ↔ root.covers offset := by
  rw [coversDownTo_iff root.mem_sites_root]
  exact and_iff_right fun f _ habove => absurd (List.prefix_nil.mp habove.1) habove.2

/-- The root contains what a node contains along with all nodes above it. -/
theorem covers_of_coversDownTo (h : root.CoversDownTo offset e) : root.covers offset :=
  h _ root.mem_sites_root List.nil_prefix

/-- A child that contains the offset does so along with all nodes above it when the node does. -/
theorem CoversDownTo.child (h : root.CoversDownTo offset e) (he : e ∈ root.sites.preorder)
    {c : Node P} (hc : c ∈ e.label.children) (hcovers : c.covers offset) :
    ∃ f ∈ root.sites.preorder, e.IsAbove f ∧ root.CoversDownTo offset f := by
  obtain ⟨f, hf, habove, rfl, hway⟩ := exists_site_of_mem_children he hc
  refine ⟨f, hf, habove, (coversDownTo_iff hf).mpr ⟨fun g hg hgf => ?_, hcovers⟩⟩
  exact h g hg (hway hgf)

/-! ## The node found -/

/-- How the search goes on at a node. -/
def answerAt (offset : P) (e : Site (Node P)) : Visit :=
  if e.label.covers offset then .proceed else .skip

theorem answerAt_ne_skip_iff : answerAt offset e ≠ .skip ↔ e.label.covers offset := by
  by_cases h : e.label.covers offset <;> simp [answerAt, h]

theorem answerAt_ne_stop : answerAt offset e ≠ .stop := by
  by_cases h : e.label.covers offset <;> simp [answerAt, h]

section Search

variable [LT P] [DecidableLT P]

/-- The search keeps the nodes that contain the offset along with all nodes above them. -/
theorem at?_eq_foldl (h : root.misses offset = false) :
    root.at? offset = some (root.sites.preorder.foldl
      (fun found e => if root.CoversDownTo offset e then e.label else found) root) := by
  have hanswer : ∀ (e : Site (Node P)) (found : Node P),
      (if e.label.covers offset then (Visit.proceed, e.label) else (.skip, found)).1
        = answerAt offset e := by
    intro e found
    rw [answerAt, apply_ite Prod.fst]
  have hkept : ¬ root.misses offset = true := by rw [h]; decide
  rw [at?, if_neg hkept, walk_all_eq_foldl (answerAt offset) hanswer, Tree.visited,
    Tree.upToStop_of_forall fun _ _ => answerAt_ne_stop, List.foldl_filter]
  refine congrArg some (List.foldl_ext _ _ _ fun found e he => ?_)
  simp only [answerAt_ne_skip_iff, decide_eq_true_eq, coversDownTo_iff he]
  by_cases hcovers : e.label.covers offset
  · simp only [hcovers, if_true, and_true]
  · simp [hcovers]

theorem IsInnermost.at?_eq (h : root.IsInnermost offset e) (hmisses : root.misses offset = false) :
    root.at? offset = some e.label := by
  obtain ⟨before, after, hsplit, hafter⟩ := h.last
  rw [at?_eq_foldl hmisses, hsplit]
  exact congrArg some (foldl_of_last h.covered hafter root)

/-- Where the root does not contain the offset, no node does along with all nodes above it. -/
theorem at?_of_not_covers (h : ¬ root.covers offset) (hmisses : root.misses offset = false) :
    root.at? offset = some root := by
  rw [at?_eq_foldl hmisses]
  apply congrArg some
  induction root.sites.preorder with
  | nil => rfl
  | cons e rest ih =>
    rw [List.foldl_cons, if_neg fun hcovered => h (covers_of_coversDownTo hcovered)]
    exact ih

theorem at?_eq_none_iff (root : Node P) (offset : P) :
    root.at? offset = none ↔ root.misses offset := by
  rw [at?]
  split <;> simp [*]

end Search

theorem exists_isInnermost (h : root.covers offset) : ∃ e, root.IsInnermost offset e := by
  obtain ⟨before, e, after, hsplit, hcovered, hafter⟩ :=
    exists_last ⟨_, root.mem_sites_root, (coversDownTo_root root offset).mpr h⟩
  have he : e ∈ root.sites.preorder := hsplit ▸ List.mem_append_right _ List.mem_cons_self
  refine ⟨e, hcovered, fun c hc hcovers => ?_, before, after, hsplit, hafter⟩
  -- A child that contained the offset would come behind the last node that does.
  obtain ⟨f, hf, habove, hchild⟩ := hcovered.child he hc hcovers
  exact hafter f (mem_after_of_isAbove hsplit hf habove) hchild

/-! ## Numbers -/

theorem misses_eq_false_of_covers {root : Node Number} {offset : Number} (h : root.covers offset) :
    root.misses offset = false := by
  simp only [covers, Bool.and_eq_true, decide_eq_true_eq] at h
  simp only [misses, Bool.or_eq_false_iff, decide_eq_false_iff_not]
  exact ⟨Number.not_lt_of_le h.1, Number.not_lt_of_le h.2⟩

theorem misses_iff_not_covers {root : Node Number} {offset : Number} (hoffset : offset ≠ .nan)
    (hstart : root.start ≠ .nan) (hstop : root.stop ≠ .nan) :
    root.misses offset ↔ ¬ root.covers offset := by
  simp only [misses, covers, Bool.or_eq_true, Bool.and_eq_true, decide_eq_true_eq,
    Number.lt_iff_not_le hoffset hstart, Number.lt_iff_not_le hstop hoffset]
  tauto

/-- No node is found just when the offset lies outside the root, which for numbers says that the root
does not contain it.  Where the root contains it, the innermost node is found, and where it neither
contains it nor lies apart from it, the root. -/
theorem at?_eq_some_iff_isInnermost (root : Node Number) (offset : Number) :
    (root.at? offset = none ↔ offset < root.start ∨ root.stop < offset) ∧
    (offset ≠ .nan → root.start ≠ .nan → root.stop ≠ .nan →
      (root.at? offset = none ↔ ¬ root.covers offset)) ∧
    (root.covers offset →
      ∀ n, root.at? offset = some n ↔ ∃ e, root.IsInnermost offset e ∧ e.label = n) ∧
    (root.at? offset ≠ none → ¬ root.covers offset → root.at? offset = some root) := by
  refine ⟨?_, ?_, fun hcovers n => ?_, fun hfound hnot => ?_⟩
  · rw [at?_eq_none_iff, misses, Bool.or_eq_true, decide_eq_true_eq, decide_eq_true_eq]
  · intro hoffset hstart hstop
    rw [at?_eq_none_iff, misses_iff_not_covers hoffset hstart hstop]
  · have hmisses := misses_eq_false_of_covers hcovers
    constructor
    · intro h
      obtain ⟨e, he⟩ := exists_isInnermost hcovers
      exact ⟨e, he, Option.some.inj ((he.at?_eq hmisses).symm.trans h)⟩
    · rintro ⟨e, he, rfl⟩
      exact he.at?_eq hmisses
  · rw [ne_eq, at?_eq_none_iff, Bool.not_eq_true] at hfound
    exact at?_of_not_covers hnot hfound

/-- Where two spans touch, the text behind is found and not the deeper one before; at what is no number
the root is. -/
theorem at?_eq_some_iff_isInnermost_sample :
    let root : Node Number := .block (.paragraph (.span 0 5)
      [.strong (.span 0 3) [.text (.span 0 3) []], .text (.span 3 5) []])
    (3 ≠ Number.nan ∧ root.start ≠ .nan ∧ root.stop ≠ .nan ∧ root.covers 3) ∧
      root.at? 3 ≠ none ∧ (∃ e, root.IsInnermost 3 e ∧ e.label.start = 3) ∧
      ¬ root.covers .nan ∧ root.at? .nan = some root := by
  intro root
  have hnumbers : 3 ≠ Number.nan ∧ root.start ≠ .nan ∧ root.stop ≠ .nan := by decide +kernel
  have hcovers : root.covers 3 := by decide +kernel
  obtain ⟨-, hnone, hinnermost, -⟩ := at?_eq_some_iff_isInnermost root 3
  obtain ⟨houtside, -, -, hroot⟩ := at?_eq_some_iff_isInnermost root .nan
  have hnan : ¬ root.covers .nan := by decide +kernel
  have hfound : root.at? .nan ≠ none := fun h => absurd (houtside.mp h) (by decide +kernel)
  refine ⟨⟨hnumbers.1, hnumbers.2.1, hnumbers.2.2, hcovers⟩, ?_, ?_, hnan, hroot hfound hnan⟩
  · intro h
    exact (hnone hnumbers.1 hnumbers.2.1 hnumbers.2.2).mp h hcovers
  · have hstart : (root.at? 3).map Node.start = some 3 := by decide +kernel
    obtain ⟨n, hn, hnstart⟩ := Option.map_eq_some_iff.mp hstart
    obtain ⟨e, he, rfl⟩ := (hinnermost hcovers n).mp hn
    exact ⟨e, he, hnstart⟩

/-- At what is no number the root is found, though its span does not contain that. -/
theorem not_forall_at?_eq_none_iff :
    ¬ ∀ (root : Node Number) (offset : Number), root.at? offset = none ↔ ¬ root.covers offset := by
  intro h
  have hroot := (h (.inline (.text (.span 0 1) "a")) .nan).mpr (by decide +kernel)
  revert hroot
  decide

end LatexMarkdown.Node
