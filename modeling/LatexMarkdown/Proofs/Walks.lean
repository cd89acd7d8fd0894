import LatexMarkdown.Proofs.Walks.Sweep
/-!
  Walks over a document tree follow their visitor.

  A visitor is asked twice at most: the method for the kind of a node comes first, and where it is
  missing or leaves open how the walk goes on, the one for any node; what both leave open goes on
  (`Visitor.Answers`).

  A walk down calls on the nodes in document order, without those below a node whose answer was to
  skip, up to the first whose answer was to stop.  A walk up calls on them from the leaves on, up to the
  first whose answer was to stop.  Main statement: `walk_follows`.
-/
namespace LatexMarkdown

open LatexMarkdown.Tree (Site)

variable {P σ : Type}

/-! ## Answers of a visitor -/

namespace Visitor

variable {v : Visitor P σ} {n : Node P} {parent : Option (Node P)} {s s' : σ}

/-- A method that is missing is not called on; another one is, and leaves open how the walk goes on. -/
inductive LeavesOpen (n : Node P) (parent : Option (Node P)) : Option (Method P σ) → σ → σ → Prop
  | missing (s : σ) : LeavesOpen n parent none s s
  | undecided {m : Method P σ} {s s' : σ} (hcall : m n parent s = (none, s')) :
    LeavesOpen n parent (some m) s s'

/-- Called on at a node, a visitor gives an answer and leaves a state. -/
inductive Answers (v : Visitor P σ) (n : Node P) (parent : Option (Node P)) : σ → Visit → σ → Prop
  | forKind {m : Method P σ} {s s' : σ} {answer : Visit} (hm : v.forKind n.kind = some m)
    (hcall : m n parent s = (some answer, s')) : Answers v n parent s answer s'
  | forAny {m : Method P σ} {s s₁ s' : σ} {answer : Visit}
    (hkind : LeavesOpen n parent (v.forKind n.kind) s s₁) (hm : v.forAny = some m)
    (hcall : m n parent s₁ = (some answer, s')) : Answers v n parent s answer s'
  | proceed {s s₁ s' : σ} (hkind : LeavesOpen n parent (v.forKind n.kind) s s₁)
    (hany : LeavesOpen n parent v.forAny s₁ s') : Answers v n parent s .proceed s'

theorem leavesOpen_iff {m : Option (Method P σ)} :
    LeavesOpen n parent m s s' ↔ call m n parent s = (none, s') := by
  constructor
  · rintro (_ | hcall)
    · rfl
    · exact hcall
  · intro h
    cases m with
    | none =>
      cases h
      exact .missing s
    | some m => exact .undecided h

theorem call_eq_some_iff {m : Option (Method P σ)} {answer : Visit} :
    call m n parent s = (some answer, s') ↔ ∃ f, m = some f ∧ f n parent s = (some answer, s') := by
  cases m <;> simp [call]

theorem answers_iff {answer : Visit} :
    v.Answers n parent s answer s' ↔ v.visit n parent s = (answer, s') := by
  constructor
  · intro h
    rw [visit]
    cases h with
    | forKind hm hcall => rw [call_eq_some_iff.mpr ⟨_, hm, hcall⟩]
    | forAny hkind hm hcall =>
      rw [leavesOpen_iff.mp hkind]
      simp only [call_eq_some_iff.mpr ⟨_, hm, hcall⟩]
    | proceed hkind hany =>
      rw [leavesOpen_iff.mp hkind]
      simp only [leavesOpen_iff.mp hany]
  · intro h
    rw [visit] at h
    split at h
    · next answer' s₁ hkind =>
      cases h
      obtain ⟨m, hm, hcall⟩ := call_eq_some_iff.mp hkind
      exact .forKind hm hcall
    · next s₁ hkind =>
      have hkind := leavesOpen_iff.mpr hkind
      split at h
      · next answer' s₂ hany =>
        cases h
        obtain ⟨m, hm, hcall⟩ := call_eq_some_iff.mp hany
        exact .forAny hkind hm hcall
      · next s₂ hany =>
        cases h
        exact .proceed hkind (leavesOpen_iff.mpr hany)

/-- Calls on sites one after the other, each with the answer it is said to have, lead from one state to
another. -/
def Calls (v : Visitor P σ) (answer : Site (Node P) → Visit) : List (Site (Node P)) → σ → σ → Prop :=
  Tree.Leads (fun e => v.Answers e.label e.parent) answer

theorem calls_iff {answer : Site (Node P) → Visit} {es : List (Site (Node P))} :
    v.Calls answer es s s' ↔
      Tree.Leads (fun e s a s' => Tree.visitSite v.visit e s = (a, s')) answer es s s' :=
  ⟨Tree.Leads.imp fun _ _ _ _ => answers_iff.mp, Tree.Leads.imp fun _ _ _ _ => answers_iff.mpr⟩

end Visitor

/-! ## Walks -/

namespace Node

variable {root : Node P} {v : Visitor P σ} {s s' : σ}

theorem nodup_sites (root : Node P) : root.sites.preorder.Nodup := by
  refine (Tree.pairwise_sites [] none root.tree).imp ?_
  rintro e _ hnot rfl
  exact hnot (List.prefix_refl _)

theorem nested_sites (root : Node P) : Tree.Nested Site.IsAbove root.sites.preorder :=
  ⟨Site.not_isAbove_self, fun _ _ _ => Site.IsAbove.trans,
    (Tree.pairwise_sites [] none root.tree).imp fun hnot habove => hnot habove.1⟩

/-- What stands below a site comes behind it in document order. -/
theorem mem_after_of_isAbove {before after : List (Site (Node P))} {e f : Site (Node P)}
    (hsplit : root.sites.preorder = before ++ e :: after) (hf : f ∈ root.sites.preorder)
    (habove : e.IsAbove f) : f ∈ after := by
  have hforward := root.nested_sites.forward
  rw [hsplit] at hf hforward
  rcases List.mem_append.mp hf with hf | hf
  · exact absurd habove ((List.pairwise_append.mp hforward).2.2 f hf e List.mem_cons_self)
  · rcases List.mem_cons.mp hf with rfl | hf
    · exact absurd habove f.not_isAbove_self
    · exact hf

theorem walk_eq_sweep (root : Node P) (v : Visitor P σ) (s : σ) :
    root.walk v s = Tree.sweep (Tree.visitSite v.visit) Site.IsAbove root.sites.preorder s := by
  have helsewhere : ∀ f ∈ ([] : List (Site (Node P))), ¬ [] <+: f.address := by simp
  have hsweep := Tree.sweep_preorder_sites v.visit helsewhere none s root.tree
  rw [List.append_nil, Tree.resume_sweep_nil] at hsweep
  exact hsweep.symm

theorem walkUp_eq_sweep (root : Node P) (v : Visitor P σ) (s : σ) :
    root.walkUp v s = Tree.sweep (Tree.visitSite v.visit) Tree.hidesNothing root.sites.postorder s := by
  have hsweep := Tree.sweep_postorder_sites v.visit [] none [] s root.tree
  rw [List.append_nil, Tree.resume_sweep_nil] at hsweep
  exact hsweep.symm

/-- A walk with answers that do not depend on the state is a fold over what they let it visit. -/
theorem walk_all_eq_foldl {m : Node P → σ → Visit × σ} (answer : Site (Node P) → Visit)
    (hanswer : ∀ e s, (m e.label s).1 = answer e) (s : σ) :
    root.walk (.all m) s = (Tree.visited Site.IsAbove answer root.sites.preorder).foldl
      (fun s e => (m e.label s).2) s := by
  rw [walk_eq_sweep]
  exact Tree.sweep_of_leads root.nested_sites (Tree.leads_foldl hanswer _ s)

/-- The nodes of one kind are those among all nodes, in document order. -/
theorem ofKind_eq_filter (root : Node P) (kind : NodeKind) :
    root.ofKind kind = root.tree.preorder.filter (·.kind = kind) := by
  have hall : Tree.visited Site.IsAbove (fun _ => .proceed) root.sites.preorder
      = root.sites.preorder := by
    rw [Tree.visited, List.filter_eq_self.mpr (by simp), Tree.upToStop_of_forall (by simp)]
  have hfold : ∀ (es : List (Site (Node P))) (found : List (Node P)),
      es.foldl (fun found e => if e.label.kind = kind then e.label :: found else found) found
        = ((es.map Site.label).filter (·.kind = kind)).reverse ++ found := by
    intro es
    induction es with
    | nil => exact fun _ => rfl
    | cons e rest ih =>
      intro found
      rw [List.foldl_cons, ih, List.map_cons, List.filter_cons]
      by_cases hkind : e.label.kind = kind <;> simp [hkind]
  have hlabels : root.sites.preorder.map Site.label = root.tree.preorder :=
    Tree.map_label_preorder_sites [] none root.tree
  rw [ofKind, walk_all_eq_foldl (fun _ => .proceed) (fun _ _ => rfl), hall, hfold,
    List.append_nil, List.reverse_reverse, hlabels]

/-- Walks follow their visitor.  A walk down calls on the nodes in document order, without those below a
node with the answer to skip, up to the first with the answer to stop; a walk up calls on them from the
leaves on, up to the first with the answer to stop.  Either comes to every node once at most, and with
the node right above it, since both orders list every address of the tree once. -/
theorem walk_follows (root : Node P) (v : Visitor P σ) (s s' : σ) :
    (root.walk v s = s' ↔ ∃ answer,
      v.Calls answer (Tree.visited Site.IsAbove answer root.sites.preorder) s s') ∧
    (root.walkUp v s = s' ↔ ∃ answer,
      v.Calls answer (Tree.upToStop answer root.sites.postorder) s s') ∧
    (root.sites.preorder.map Site.label = root.tree.preorder ∧
      root.sites.postorder.map Site.label = root.tree.postorder ∧
      root.sites.postorder.Perm root.sites.preorder ∧
      (root.sites.preorder.map Site.address).Nodup ∧
      (∀ e, e ∈ root.sites.preorder ↔ root.HasSite e) ∧
      ∀ answer, (Tree.visited Site.IsAbove answer root.sites.preorder).Sublist root.sites.preorder ∧
        (Tree.upToStop answer root.sites.postorder).Sublist root.sites.postorder) ∧
    ∀ kind, root.ofKind kind = root.tree.preorder.filter (·.kind = kind) := by
  have hperm : root.sites.postorder.Perm root.sites.preorder := Tree.postorder_perm _
  refine ⟨?_, ?_, ⟨Tree.map_label_preorder_sites [] none root.tree,
    Tree.map_label_postorder_sites [] none root.tree, hperm, root.nodup_address_sites,
    fun _ => mem_sites, fun answer => ⟨Tree.visited_sublist answer _, Tree.upToStop_sublist answer _⟩⟩,
    root.ofKind_eq_filter⟩
  · rw [walk_eq_sweep, Tree.sweep_eq_iff root.nested_sites root.nodup_sites]
    exact exists_congr fun answer => Visitor.calls_iff.symm
  · rw [walkUp_eq_sweep, Tree.sweep_eq_iff (Tree.nested_hidesNothing _)
      (hperm.nodup_iff.mpr root.nodup_sites)]
    refine exists_congr fun answer => ?_
    rw [Tree.visited_hidesNothing]
    exact Visitor.calls_iff.symm

/-- What is below the strong text is left out; the text behind it is not. -/
example :
    let root : Node := .block (.paragraph (.span 0 9)
      [.strong (.span 0 5) [.text (.span 2 3) []], .text (.span 5 9) []])
    let log : Visitor.Method Nat (List Nat) := fun n _ log => (none, log ++ [n.start])
    let v : Visitor Nat (List Nat) :=
      { forKind := fun kind => if kind = .strong then some fun _ _ log => (some .skip, log) else none,
        forAny := some log }
    root.walk v [] = [0, 5] ∧ root.walkUp v [] = [2, 5, 0] := by
  decide

end Node

end LatexMarkdown
