import LatexMarkdown.Proofs.Walks.Sites
import Mathlib.Logic.Function.Basic
/-!
  Walks as sweeps over a list.

  A walk down a tree calls on the labels in document order, and a walk up from the leaves on, so either
  is a sweep over a list of sites (`sweep_preorder_sites`, `sweep_postorder_sites`): each is called on in
  turn, one that is answered by skipping takes those that it hides out of the rest, and one that is
  answered by stopping ends the sweep.

  What a sweep calls on is told by the answers alone: `visited` leaves out whatever is hidden by a site
  with the answer to skip, and cuts the list behind the first answer to stop.  Main statement:
  `sweep_eq_iff`, a sweep ends in the state to which the visits lead that give such answers.
-/
namespace LatexMarkdown

namespace Tree

section Lists

variable {ε σ : Type} (visit : ε → σ → Visit × σ) (hides : ε → ε → Prop) [DecidableRel hides]

/-- The entries of a list that an entry does not hide. -/
def unhidden (e : ε) (es : List ε) : List ε := es.filter (¬ hides e ·)

/-- Calls on the entries of a list in turn. -/
def sweep : List ε → σ → σ
  | [], s => s
  | e :: rest, s =>
    match visit e s with
    | (.stop, s) => s
    | (.skip, s) => sweep (unhidden hides e rest) s
    | (.proceed, s) => sweep rest s
  termination_by es => es.length
  decreasing_by
    · exact Nat.lt_succ_of_le (List.length_filter_le _ _)
    · exact Nat.lt_succ_self _

/-- A list up to the first entry with the answer to stop, that entry included. -/
def upToStop (answer : ε → Visit) : List ε → List ε
  | [] => []
  | e :: rest => if answer e = .stop then [e] else e :: upToStop answer rest

/-- A list without the entries that are hidden by one with the answer to skip, up to the first entry
with the answer to stop. -/
def visited (answer : ε → Visit) (es : List ε) : List ε :=
  upToStop answer (es.filter fun e => ∀ f ∈ es, hides f e → answer f ≠ .skip)

/-- What is visited behind an entry that has been answered. -/
def visitedBehind (answer : ε → Visit) (e : ε) (rest : List ε) : Visit → List ε
  | .stop => []
  | .skip => visited hides answer (unhidden hides e rest)
  | .proceed => visited hides answer rest

/-- Calls on entries one after the other, each with the answer it is said to have, lead from one state
to another. -/
inductive Leads (calls : ε → σ → Visit → σ → Prop) (answer : ε → Visit) : List ε → σ → σ → Prop
  | nil (s : σ) : Leads calls answer [] s s
  | cons {e : ε} {es : List ε} {s s₁ s₂ : σ} (hcall : calls e s (answer e) s₁)
    (hrest : Leads calls answer es s₁ s₂) : Leads calls answer (e :: es) s s₂

/-- No entry of a list hides one that comes before it, or itself, and what an entry hides hides nothing
but what the entry hides too. -/
structure Nested (es : List ε) : Prop where
  irrefl : ∀ e, ¬ hides e e
  trans : ∀ e f g, hides e f → hides f g → hides e g
  forward : es.Pairwise fun e f => ¬ hides f e

variable {visit hides} {answer answer' : ε → Visit} {calls : ε → σ → Visit → σ → Prop}
variable {e : ε} {es rest : List ε} {s s' : σ}

omit [DecidableRel hides] in
theorem Nested.of_cons (h : Nested hides (e :: rest)) : Nested hides rest :=
  ⟨h.irrefl, h.trans, (List.pairwise_cons.mp h.forward).2⟩

theorem Nested.unhidden (h : Nested hides es) (e : ε) : Nested hides (unhidden hides e es) :=
  ⟨h.irrefl, h.trans, h.forward.filter _⟩

/-! ## What is visited -/

/-- The first entry is visited, and what comes then is up to its answer. -/
theorem visited_cons (h : Nested hides (e :: rest)) (answer : ε → Visit) :
    visited hides answer (e :: rest) = e :: visitedBehind hides answer e rest (answer e) := by
  have hfirst : ∀ f ∈ e :: rest, hides f e → answer f ≠ .skip := by
    intro f hf hhides
    rcases List.mem_cons.mp hf with rfl | hf
    · exact absurd hhides (h.irrefl f)
    · exact absurd hhides ((List.pairwise_cons.mp h.forward).1 f hf)
  rw [visited, List.filter_cons, if_pos (decide_eq_true hfirst), upToStop]
  cases hanswer : answer e with
  | stop => rw [if_pos rfl, visitedBehind]
  | proceed =>
    rw [if_neg (by simp), visitedBehind, visited]
    refine congrArg (fun es => e :: upToStop answer es) (List.filter_congr fun g _ => ?_)
    simp [hanswer]
  | skip =>
    rw [if_neg (by simp), visitedBehind, visited, unhidden, List.filter_filter]
    refine congrArg (fun es => e :: upToStop answer es) (List.filter_congr fun g _ => ?_)
    -- What `e` hides is left out, so it need not be asked what that hides in turn.
    rw [Bool.eq_iff_iff, Bool.and_eq_true, decide_eq_true_iff, decide_eq_true_iff,
      decide_eq_true_iff]
    constructor
    · intro hg
      refine ⟨fun f hf => hg f (List.mem_cons_of_mem e (List.mem_of_mem_filter hf)), fun heg => ?_⟩
      exact hg e List.mem_cons_self heg hanswer
    · rintro ⟨hg, heg⟩ f hf hfg
      rcases List.mem_cons.mp hf with rfl | hf
      · exact absurd hfg heg
      · refine hg f (List.mem_filter.mpr ⟨hf, ?_⟩) hfg
        simpa using fun hef => heg (h.trans e f g hef hfg)

theorem upToStop_congr (h : ∀ f ∈ es, answer f = answer' f) :
    upToStop answer es = upToStop answer' es := by
  induction es with
  | nil => rfl
  | cons e rest ih =>
    rw [upToStop, upToStop, h e List.mem_cons_self, ih fun f hf => h f (List.mem_cons_of_mem e hf)]

theorem upToStop_sublist (answer : ε → Visit) (es : List ε) :
    (upToStop answer es).Sublist es := by
  induction es with
  | nil => exact .slnil
  | cons e rest ih =>
    rw [upToStop]
    split
    · exact (List.nil_sublist rest).cons_cons e
    · exact ih.cons_cons e

/-- Only entries of the list are visited, in their order. -/
theorem visited_sublist (answer : ε → Visit) (es : List ε) :
    (visited hides answer es).Sublist es :=
  (upToStop_sublist answer _).trans List.filter_sublist

/-- What is visited depends on the answers in the list alone. -/
theorem visited_congr (h : ∀ f ∈ es, answer f = answer' f) :
    visited hides answer es = visited hides answer' es := by
  have hfilter : (es.filter fun e => ∀ f ∈ es, hides f e → answer f ≠ .skip)
      = es.filter fun e => ∀ f ∈ es, hides f e → answer' f ≠ .skip := by
    refine List.filter_congr fun g _ => ?_
    rw [decide_eq_decide]
    exact forall₂_congr fun f hf => by rw [h f hf]
  rw [visited, visited, hfilter]
  exact upToStop_congr fun f hf => h f (List.mem_of_mem_filter hf)

theorem Leads.congr (h : ∀ f ∈ es, answer f = answer' f) (hl : Leads calls answer es s s') :
    Leads calls answer' es s s' := by
  induction hl with
  | nil s => exact .nil s
  | cons hcall _ ih =>
    refine .cons ?_ (ih fun f hf => h f (List.mem_cons_of_mem _ hf))
    rwa [← h _ List.mem_cons_self]

theorem Leads.imp {calls' : ε → σ → Visit → σ → Prop}
    (h : ∀ e s a s', calls e s a s' → calls' e s a s') (hl : Leads calls answer es s s') :
    Leads calls' answer es s s' := by
  induction hl with
  | nil s => exact .nil s
  | cons hcall _ ih => exact .cons (h _ _ _ _ hcall) ih

/-! ## Sweeps -/

/-- Behind the first visit, the others lead on. -/
theorem Leads.behind {a : Visit} {s₁ : σ} (h : Nested hides (e :: rest)) (hvisit : visit e s = (a, s₁))
    (hl : Leads (fun e s a s' => visit e s = (a, s')) answer (visited hides answer (e :: rest)) s s') :
    Leads (fun e s a s' => visit e s = (a, s')) answer (visitedBehind hides answer e rest a) s₁ s' := by
  rw [visited_cons h] at hl
  cases hl with
  | cons hcall hrest =>
    obtain ⟨hanswer, rfl⟩ := Prod.mk.inj (hvisit.symm.trans hcall)
    rwa [← hanswer] at hrest

/-- Visits that give the answers lead to where a sweep ends. -/
theorem sweep_of_leads (h : Nested hides es)
    (hl : Leads (fun e s a s' => visit e s = (a, s')) answer (visited hides answer es) s s') :
    sweep visit hides es s = s' := by
  fun_induction sweep visit hides es s with
  | case1 s =>
    cases hl
    rfl
  | case2 e rest s s₁ hvisit =>
    cases hl.behind h hvisit
    rfl
  | case3 e rest s s₁ hvisit ih => exact ih (h.of_cons.unhidden e) (hl.behind h hvisit)
  | case4 e rest s s₁ hvisit ih => exact ih h.of_cons (hl.behind h hvisit)

/-- What is visited behind an entry depends on the answers behind it alone. -/
theorem visitedBehind_congr (h : ∀ f ∈ rest, answer f = answer' f) (a : Visit) :
    visitedBehind hides answer e rest a = visitedBehind hides answer' e rest a := by
  cases a with
  | stop => rfl
  | skip => exact visited_congr fun f hf => h f (List.mem_of_mem_filter hf)
  | proceed => exact visited_congr h

theorem visitedBehind_subset (answer : ε → Visit) (a : Visit) :
    visitedBehind hides answer e rest a ⊆ rest := by
  cases a with
  | stop => exact List.nil_subset rest
  | skip => exact fun f hf => List.mem_of_mem_filter ((visited_sublist answer _).subset hf)
  | proceed => exact (visited_sublist answer rest).subset

/-- A visit may come in front of others, since nothing was said of its answer behind it. -/
theorem Leads.front {a : Visit} {s₁ : σ} [DecidableEq ε] (h : Nested hides (e :: rest)) (he : e ∉ rest)
    (hcall : calls e s a s₁) (hl : Leads calls answer (visitedBehind hides answer e rest a) s₁ s') :
    Leads calls (Function.update answer e a) (visited hides (Function.update answer e a) (e :: rest))
      s s' := by
  have hsame : ∀ f ∈ rest, answer f = Function.update answer e a f := by
    intro f hf
    rw [Function.update_of_ne]
    rintro rfl
    exact he hf
  rw [visited_cons h, Function.update_self, ← visitedBehind_congr hsame]
  refine .cons ?_ (hl.congr fun f hf => hsame f (visitedBehind_subset answer a hf))
  rwa [Function.update_self]

/-- The visits of a sweep give answers that tell what is visited. -/
theorem exists_leads_sweep (h : Nested hides es) (hnodup : es.Nodup) (s : σ) :
    ∃ answer, Leads (fun e s a s' => visit e s = (a, s')) answer (visited hides answer es) s
      (sweep visit hides es s) := by
  classical
  fun_induction sweep visit hides es s with
  | case1 s => exact ⟨fun _ => .proceed, .nil s⟩
  | case2 e rest s s₁ hvisit =>
    obtain ⟨he, -⟩ := List.nodup_cons.mp hnodup
    exact ⟨Function.update (fun _ => .proceed) e .stop, Leads.front h he hvisit (.nil s₁)⟩
  | case3 e rest s s₁ hvisit ih =>
    obtain ⟨he, hrest⟩ := List.nodup_cons.mp hnodup
    obtain ⟨answer, hl⟩ := ih (h.of_cons.unhidden e) (hrest.filter _)
    exact ⟨_, hl.front h he hvisit⟩
  | case4 e rest s s₁ hvisit ih =>
    obtain ⟨he, hrest⟩ := List.nodup_cons.mp hnodup
    obtain ⟨answer, hl⟩ := ih h.of_cons hrest
    exact ⟨_, hl.front h he hvisit⟩

/-- A sweep ends where the visits lead that give the answers by which they are told. -/
theorem sweep_eq_iff (h : Nested hides es) (hnodup : es.Nodup) :
    sweep visit hides es s = s' ↔ ∃ answer,
      Leads (fun e s a s' => visit e s = (a, s')) answer (visited hides answer es) s s' := by
  constructor
  · rintro rfl
    exact exists_leads_sweep h hnodup s
  · rintro ⟨answer, hl⟩
    exact sweep_of_leads h hl

/-- Where the answers do not depend on the state, the visits are a fold. -/
theorem leads_foldl (hanswer : ∀ e s, (visit e s).1 = answer e) (es : List ε) (s : σ) :
    Leads (fun e s a s' => visit e s = (a, s')) answer es s
      (es.foldl (fun s e => (visit e s).2) s) := by
  induction es generalizing s with
  | nil => exact .nil s
  | cons e rest ih => exact .cons (Prod.ext (hanswer e s) rfl) (ih _)

theorem upToStop_of_forall (h : ∀ f ∈ es, answer f ≠ .stop) : upToStop answer es = es := by
  induction es with
  | nil => rfl
  | cons e rest ih =>
    rw [upToStop, if_neg (h e List.mem_cons_self), ih fun f hf => h f (List.mem_cons_of_mem e hf)]

/-- Skipping leaves nothing out where nothing is hidden. -/
def hidesNothing (_ _ : ε) : Prop := False

instance : DecidableRel (hidesNothing (ε := ε)) := fun _ _ => inferInstanceAs (Decidable False)

theorem unhidden_hidesNothing (e : ε) (es : List ε) : unhidden hidesNothing e es = es :=
  List.filter_eq_self.mpr fun _ _ => decide_eq_true not_false

theorem visited_hidesNothing (answer : ε → Visit) (es : List ε) :
    visited hidesNothing answer es = upToStop answer es := by
  rw [visited, List.filter_eq_self.mpr fun _ _ => decide_eq_true fun _ _ h => h.elim]

omit [DecidableRel hides] in
theorem nested_hidesNothing (es : List ε) : Nested hidesNothing es :=
  ⟨fun _ h => h, fun _ _ _ h _ => h, List.pairwise_of_forall fun _ _ h => h⟩

end Lists

/-! ## Walks -/

section Walks

variable {α σ : Type} (visit : α → Option α → σ → Visit × σ)

/-- A visit at a site. -/
def visitSite (e : Site α) (s : σ) : Visit × σ := visit e.label e.parent s

/-- What comes behind a walk, unless it was ended. -/
def resume (walked : Bool × σ) (next : σ → σ) : σ := if walked.1 then walked.2 else next walked.2

variable {rest : List (Site α)}

theorem unhidden_append {e : Site α} {es : List (Site α)} (hes : ∀ f ∈ es, e.IsAbove f)
    (hrest : ∀ f ∈ rest, ¬ e.IsAbove f) : unhidden Site.IsAbove e (es ++ rest) = rest := by
  rw [unhidden, List.filter_append, List.filter_eq_nil_iff.mpr (by simpa using hes),
    List.filter_eq_self.mpr (by simpa using hrest), List.nil_append]

mutual

/-- A walk down a tree sweeps its sites in document order; what is left to sweep stands elsewhere. -/
theorem sweep_preorder_sites {address : List Nat} {rest : List (Site α)}
    (hrest : ∀ f ∈ rest, ¬ address <+: f.address) (parent : Option α) (s : σ) : ∀ t : Tree α,
    sweep (visitSite visit) Site.IsAbove ((t.sites address parent).preorder ++ rest) s
      = resume (t.walkDown visit parent s) (sweep (visitSite visit) Site.IsAbove rest)
  | node a ts => by
    have hbelow : ∀ f ∈ preorderOf (sitesFrom address a 0 ts),
        (⟨address, a, parent⟩ : Site α).IsAbove f := by
      intro f hf
      obtain ⟨j, -, hj⟩ := exists_prefix_of_mem_sitesFrom hf
      refine ⟨(List.prefix_append address [j]).trans hj, fun heq => ?_⟩
      have hle := hj.length_le
      rw [← heq, List.length_append, List.length_singleton] at hle
      exact absurd hle (Nat.not_succ_le_self _)
    rw [sites, preorder, List.cons_append, sweep, walkDown, visitSite]
    split
    · next s₁ hvisit => rw [hvisit]; rfl
    · next s₁ hvisit =>
      rw [hvisit, unhidden_append hbelow fun f hf habove => hrest f hf habove.1]
      rfl
    · next s₁ hvisit =>
      rw [hvisit]
      exact sweep_preorderOf_sitesFrom
        (fun f hf j _ hj => hrest f hf ((List.prefix_append address [j]).trans hj)) s₁ ts

theorem sweep_preorderOf_sitesFrom {address : List Nat} {a : α} {i : Nat} {rest : List (Site α)}
    (hrest : ∀ f ∈ rest, ∀ j, i ≤ j → ¬ address ++ [j] <+: f.address) (s : σ) :
    ∀ ts : List (Tree α),
    sweep (visitSite visit) Site.IsAbove (preorderOf (sitesFrom address a i ts) ++ rest) s
      = resume (walkDownAll visit (some a) ts s) (sweep (visitSite visit) Site.IsAbove rest)
  | [] => rfl
  | t :: ts => by
    have helsewhere : ∀ f ∈ preorderOf (sitesFrom address a (i + 1) ts) ++ rest,
        ¬ address ++ [i] <+: f.address := by
      intro f hf hi
      rcases List.mem_append.mp hf with hf | hf
      · obtain ⟨j, hle, hj⟩ := exists_prefix_of_mem_sitesFrom hf
        have hij := eq_of_prefix hi hj
        omega
      · exact hrest f hf i (Nat.le_refl i) hi
    rw [sitesFrom, preorderOf, List.append_assoc, sweep_preorder_sites helsewhere (some a) s t,
      walkDownAll]
    split
    · next s₁ hwalk => rw [hwalk]; rfl
    · next s₁ hwalk =>
      rw [hwalk]
      exact sweep_preorderOf_sitesFrom (fun f hf j hj => hrest f hf j (Nat.le_of_succ_le hj)) s₁ ts

end

mutual

/-- A walk up a tree sweeps its sites from the leaves on. -/
theorem sweep_postorder_sites (address : List Nat) (parent : Option α) (rest : List (Site α))
    (s : σ) : ∀ t : Tree α,
    sweep (visitSite visit) hidesNothing ((t.sites address parent).postorder ++ rest) s
      = resume (t.walkUp visit parent s) (sweep (visitSite visit) hidesNothing rest)
  | node a ts => by
    rw [sites, postorder, List.append_assoc, sweep_postorderOf_sitesFrom address a 0 _ s ts, walkUp]
    split
    · next s₁ hwalk => rw [hwalk]; rfl
    · next s₁ hwalk =>
      rw [hwalk]
      show sweep _ _ (⟨address, a, parent⟩ :: rest) s₁ = _
      rw [sweep, visitSite, unhidden_hidesNothing]
      cases visit a parent s₁ with
      | mk answer s₂ => cases answer <;> rfl

theorem sweep_postorderOf_sitesFrom (address : List Nat) (a : α) (i : Nat) (rest : List (Site α))
    (s : σ) : ∀ ts : List (Tree α),
    sweep (visitSite visit) hidesNothing (postorderOf (sitesFrom address a i ts) ++ rest) s
      = resume (walkUpAll visit (some a) ts s) (sweep (visitSite visit) hidesNothing rest)
  | [] => rfl
  | t :: ts => by
    rw [sitesFrom, postorderOf, List.append_assoc, sweep_postorder_sites _ _ _ s t, walkUpAll]
    split
    · next s₁ hwalk => rw [hwalk]; rfl
    · next s₁ hwalk =>
      rw [hwalk]
      exact sweep_postorderOf_sitesFrom address a (i + 1) rest s₁ ts

end

/-- With nothing left to sweep, a sweep ends where the walk does. -/
theorem resume_sweep_nil (visit : Site α → σ → Visit × σ) (hides : Site α → Site α → Prop)
    [DecidableRel hides] (walked : Bool × σ) : resume walked (sweep visit hides []) = walked.2 := by
  rw [resume, sweep, ite_self]

end Walks

end Tree

end LatexMarkdown
