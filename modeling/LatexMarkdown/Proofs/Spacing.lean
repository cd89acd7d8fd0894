import LatexMarkdown.Document.Fragments
import Mathlib.Data.List.Induction
import Mathlib.Tactic.Tauto
/-!
  Space in inline content.

  Collapsing respects concatenation up to the space at the seam (`Text.collapsed_append`), so texts
  with the same collapsed form may stand for each other anywhere.  `Text.squeeze` collapses and
  drops the space at both ends; putting inline content into normal form does just that to its
  characters (`Inline.plainTextOf_normalize`), as long as no formatted node has space at its edges.
-/
namespace LatexMarkdown

open Inline (dropFrontSpace dropBackSpace)

namespace CodeUnit

theorem ne_of_isInlineSpace_eq_false {u : CodeUnit} (h : u.isInlineSpace = false) : u ≠ 0x20 := by
  rintro rfl
  exact absurd h (by decide)

theorem isSourceSpace_of_isInlineSpace {u : CodeUnit} (h : u.isInlineSpace = true) :
    u.isSourceSpace = true := by
  simp only [isInlineSpace, Bool.or_eq_true, beq_iff_eq] at h
  rcases h with ((((h | h) | h) | h) | h) | h <;> subst h <;> decide

/-- A class without space in it. -/
theorem isSourceSpace_eq_false {p : CodeUnit → Bool} {u : CodeUnit} (h : p u = true)
    (hp : ∀ v ∈ ([0x20, 0x09, 0x0B, 0x0C, 0xA0, 0x0A, 0x0D] : List CodeUnit), p v = false := by decide) :
    u.isSourceSpace = false := by
  rw [← Bool.not_eq_true]
  intro hs
  simp only [isSourceSpace, isLineSpace, isLineBreak, Bool.or_eq_true, beq_iff_eq] at hs
  have hmem : u ∈ ([0x20, 0x09, 0x0B, 0x0C, 0xA0, 0x0A, 0x0D] : List CodeUnit) := by
    simp only [List.mem_cons, List.not_mem_nil, or_false]
    tauto
  rw [hp u hmem] at h
  exact absurd h (by decide)

end CodeUnit

namespace Text

/-- Every run of space made one space character. -/
abbrev collapsed (t : Text) : Text := t.collapse CodeUnit.isInlineSpace

/-- Every run of space made one space character, and none left at either end. -/
def squeeze (t : Text) : Text := dropBackSpace (dropFrontSpace t.collapsed)

/-- Does a text begin with space? -/
def startsInSpace (t : Text) : Bool := t.head?.any CodeUnit.isInlineSpace

/-- Does a text end with space? -/
def endsInSpace (t : Text) : Bool := t.getLast?.any CodeUnit.isInlineSpace

/-- Two texts with the space between them made one. -/
def glue (s t : Text) : Text := s ++ if s.endsInSpace then dropFrontSpace t else t

/-! ## Collapsed text -/

theorem collapseFrom_append (before : Bool) (s t : Text) :
    collapseFrom CodeUnit.isInlineSpace before (s ++ t)
      = collapseFrom CodeUnit.isInlineSpace before s
        ++ collapseFrom CodeUnit.isInlineSpace (s.getLast?.elim before CodeUnit.isInlineSpace) t := by
  induction s generalizing before with
  | nil => rfl
  | cons u rest ih =>
    have hends : (u :: rest).getLast?.elim before CodeUnit.isInlineSpace
        = rest.getLast?.elim u.isInlineSpace CodeUnit.isInlineSpace := by
      rw [List.getLast?_cons]
      cases rest.getLast? <;> rfl
    rw [List.cons_append, collapseFrom, collapseFrom, hends]
    cases hu : u.isInlineSpace with
    | true => cases before <;> simp [ih]
    | false => simp [ih]

/-- Behind space, collapsed text has no space at its front. -/
theorem collapseFrom_true (t : Text) :
    collapseFrom CodeUnit.isInlineSpace true t = dropFrontSpace t.collapsed := by
  cases t with
  | nil => rfl
  | cons u rest =>
    rw [collapsed, collapse, collapseFrom, collapseFrom]
    cases hu : u.isInlineSpace with
    | true => simp [dropFrontSpace]
    | false => simp [dropFrontSpace, CodeUnit.ne_of_isInlineSpace_eq_false hu]

theorem collapseFrom_of_startsInSpace {t : Text} (h : t.startsInSpace = false) (before : Bool) :
    collapseFrom CodeUnit.isInlineSpace before t = t.collapsed := by
  cases t with
  | nil => rfl
  | cons u rest =>
    have hu : u.isInlineSpace = false := by simpa [startsInSpace] using h
    simp [collapsed, collapse, collapseFrom, hu]

theorem startsInSpace_collapseFrom_true (t : Text) :
    startsInSpace (collapseFrom CodeUnit.isInlineSpace true t) = false := by
  induction t with
  | nil => rfl
  | cons u rest ih =>
    rw [collapseFrom]
    cases hu : u.isInlineSpace with
    | true => simpa using ih
    | false => simpa [startsInSpace] using hu

@[simp] theorem startsInSpace_dropFrontSpace (t : Text) :
    startsInSpace (dropFrontSpace t.collapsed) = false := by
  rw [← collapseFrom_true, startsInSpace_collapseFrom_true]

@[simp] theorem startsInSpace_collapsed (t : Text) : startsInSpace t.collapsed = t.startsInSpace := by
  cases t with
  | nil => rfl
  | cons u rest =>
    rw [collapsed, collapse, collapseFrom, startsInSpace, startsInSpace]
    cases hu : u.isInlineSpace with
    | true => simp [hu]; decide
    | false => simp [hu]

/-- What ends in space keeps a space at its end. -/
theorem endsInSpace_collapsed (t : Text) : endsInSpace t.collapsed = t.endsInSpace := by
  induction t using List.reverseRecOn with
  | nil => rfl
  | append_singleton rest u ih =>
    have hu' : endsInSpace (rest ++ [u]) = u.isInlineSpace := by
      rw [endsInSpace, List.getLast?_concat, Option.any_some]
    rw [hu', collapsed, collapse, collapseFrom_append]
    cases hu : u.isInlineSpace with
    | false => simp [collapseFrom, hu, endsInSpace]
    | true =>
      cases hends : rest.getLast?.elim false CodeUnit.isInlineSpace with
      | false =>
        simp only [collapseFrom, hu, endsInSpace, if_true, Bool.false_eq_true, if_false,
          List.getLast?_concat]
        decide
      | true =>
        -- The space is there already.
        have hlast : endsInSpace rest = true := by
          rw [← hends, endsInSpace]
          cases rest.getLast? <;> rfl
        rw [hlast, collapsed, collapse] at ih
        simpa [collapseFrom, hu] using ih

/-- Collapsing respects concatenation up to the space at the seam. -/
theorem collapsed_append (s t : Text) : (s ++ t).collapsed = glue s.collapsed t.collapsed := by
  have hends : s.getLast?.elim false CodeUnit.isInlineSpace = s.endsInSpace := by
    rw [endsInSpace]
    cases s.getLast? <;> rfl
  rw [collapsed, collapse, collapseFrom_append, glue, endsInSpace_collapsed, hends]
  cases s.endsInSpace with
  | true => rw [collapseFrom_true, if_pos rfl]; rfl
  | false => rfl

/-- Texts may be replaced by others with the same collapsed form. -/
theorem collapsed_append_congr {s s' t t' : Text} (hs : s.collapsed = s'.collapsed)
    (ht : t.collapsed = t'.collapsed) : (s ++ t).collapsed = (s' ++ t').collapsed := by
  rw [collapsed_append, collapsed_append, hs, ht]

theorem collapseFrom_collapseFrom (before : Bool) (t : Text) :
    collapseFrom CodeUnit.isInlineSpace before (collapseFrom CodeUnit.isInlineSpace before t)
      = collapseFrom CodeUnit.isInlineSpace before t := by
  induction t generalizing before with
  | nil => rfl
  | cons u rest ih =>
    rw [collapseFrom]
    cases hu : u.isInlineSpace with
    | true =>
      have hspace : CodeUnit.isInlineSpace 0x20 = true := by decide
      cases before with
      | true => simpa using ih true
      | false => simp [collapseFrom, hspace, ih]
    | false => simp [collapseFrom, hu, ih]

@[simp] theorem collapsed_collapsed (t : Text) : t.collapsed.collapsed = t.collapsed :=
  collapseFrom_collapseFrom false t

theorem dropFrontSpace_of_startsInSpace {t : Text} (h : t.startsInSpace = false) :
    dropFrontSpace t = t := by
  apply if_neg
  intro hhead
  rw [startsInSpace, hhead] at h
  exact absurd h (by decide)

theorem dropBackSpace_of_endsInSpace {t : Text} (h : t.endsInSpace = false) :
    dropBackSpace t = t := by
  apply if_neg
  intro hlast
  rw [endsInSpace, hlast] at h
  exact absurd h (by decide)

/-- Where no space meets the seam, both sides are collapsed on their own. -/
theorem collapsed_append_of_or {s t : Text} (h : s.endsInSpace = false ∨ t.startsInSpace = false) :
    (s ++ t).collapsed = s.collapsed ++ t.collapsed := by
  rw [collapsed_append, glue, endsInSpace_collapsed]
  rcases h with h | h
  · rw [h]
    rfl
  · rw [dropFrontSpace_of_startsInSpace (by rw [startsInSpace_collapsed, h]), ite_self]

/-- Text without space stays as it is. -/
theorem collapsed_of_forall {t : Text} (h : ∀ u ∈ t, CodeUnit.isInlineSpace u = false) :
    t.collapsed = t :=
  collapseFrom_of_none h false

theorem collapsed_ne_nil {t : Text} (h : t ≠ []) : t.collapsed ≠ [] := by
  obtain ⟨u, rest, rfl⟩ := List.exists_cons_of_ne_nil h
  rw [collapsed, collapse, collapseFrom]
  split <;> simp

/-! ## Text without space at its ends -/

/-- Collapsed text with something in it and no space at its ends. -/
structure Tight (t : Text) : Prop where
  ne_nil : t ≠ []
  collapsed_eq : t.collapsed = t
  starts : t.startsInSpace = false
  ends : t.endsInSpace = false

theorem collapsed_dropFrontSpace (t : Text) :
    (dropFrontSpace t.collapsed).collapsed = dropFrontSpace t.collapsed := by
  have h := collapseFrom_collapseFrom true t
  rwa [collapseFrom_of_startsInSpace (startsInSpace_collapseFrom_true t), collapseFrom_true] at h

theorem length_collapseFrom_le (before : Bool) (t : Text) :
    (collapseFrom CodeUnit.isInlineSpace before t).length ≤ t.length := by
  induction t generalizing before with
  | nil => exact Nat.le_refl _
  | cons u rest ih =>
    have hfalse := ih false
    have htrue := ih true
    rw [collapseFrom]
    split
    · split
      · rw [List.length_cons]
        omega
      · simpa using htrue
    · simpa using hfalse

/-- All space in collapsed text is the space character. -/
theorem eq_of_mem_collapseFrom {p : CodeUnit → Bool} {before : Bool} {t : Text} {u : CodeUnit}
    (h : u ∈ collapseFrom p before t) (hu : p u = true) : u = 0x20 := by
  induction t generalizing before with
  | nil => simp [collapseFrom] at h
  | cons v rest ih =>
    rw [collapseFrom] at h
    cases hv : p v with
    | true =>
      cases before with
      | true => exact ih (by simpa [hv] using h)
      | false =>
        rw [hv, if_pos rfl, if_neg (by simp)] at h
        rcases List.mem_cons.mp h with h | h
        · exact h
        · exact ih h
    | false =>
      rw [hv, if_neg (by simp)] at h
      rcases List.mem_cons.mp h with rfl | h
      · exact absurd hu (by simp [hv])
      · exact ih h

/-- A space character at the end of collapsed text is the only space there. -/
theorem collapsed_dropBackSpace {t : Text} (h : t.collapsed = t) :
    (dropBackSpace t).collapsed = dropBackSpace t ∧ endsInSpace (dropBackSpace t) = false := by
  by_cases hlast : t.getLast? = some 0x20
  · obtain ⟨d, rfl⟩ := List.getLast?_eq_some_iff.mp hlast
    have hdrop : dropBackSpace (d ++ [0x20]) = d := by
      rw [dropBackSpace, if_pos hlast, List.dropLast_concat]
    have hspace : collapsed [0x20] = [0x20] := by decide
    rw [hdrop]
    rw [collapsed_append, hspace, glue, endsInSpace_collapsed] at h
    cases hends : endsInSpace d with
    | true =>
      -- Two spaces would have been made one.
      have hdrop' : dropFrontSpace [0x20] = [] := by decide
      rw [hends, if_pos rfl, hdrop', List.append_nil] at h
      have hle := length_collapseFrom_le false d
      have hlen := congrArg List.length h
      rw [List.length_append, List.length_singleton] at hlen
      rw [collapsed, collapse] at hlen
      omega
    | false =>
      rw [hends] at h
      exact ⟨List.append_cancel_right h, rfl⟩
  · have hdrop : dropBackSpace t = t := if_neg hlast
    rw [hdrop]
    refine ⟨h, ?_⟩
    cases hg : t.getLast? with
    | none => rw [endsInSpace, hg]; rfl
    | some u =>
      rw [endsInSpace, hg, Option.any_some, ← Bool.not_eq_true]
      intro hu
      have hmem : u ∈ t.collapsed := by
        rw [h]
        exact List.mem_of_getLast? hg
      exact hlast (by rw [hg, eq_of_mem_collapseFrom hmem hu])

theorem startsInSpace_dropBackSpace {t : Text} (h : t.startsInSpace = false) :
    startsInSpace (dropBackSpace t) = false := by
  unfold dropBackSpace
  split
  · cases t with
    | nil => rfl
    | cons u rest =>
      cases rest with
      | nil => rfl
      | cons v rest => exact h
  · exact h

/-- Squeezed text has no space at its ends. -/
theorem tight_squeeze {t : Text} (h : t.squeeze ≠ []) : t.squeeze.Tight := by
  obtain ⟨hcollapsed, hends⟩ := collapsed_dropBackSpace (collapsed_dropFrontSpace t)
  exact ⟨h, hcollapsed, startsInSpace_dropBackSpace (startsInSpace_dropFrontSpace t), hends⟩

theorem dropFrontSpace_subset (t : Text) : dropFrontSpace t ⊆ t := by
  unfold dropFrontSpace
  split
  · exact fun _ => List.mem_of_mem_tail
  · exact List.Subset.refl t

theorem dropBackSpace_subset (t : Text) : dropBackSpace t ⊆ t := by
  unfold dropBackSpace
  split
  · exact List.dropLast_subset t
  · exact List.Subset.refl t

/-- Collapsing brings in nothing but the space character. -/
theorem mem_or_eq_of_mem_collapseFrom {p : CodeUnit → Bool} {before : Bool} {t : Text} {u : CodeUnit}
    (h : u ∈ collapseFrom p before t) : u ∈ t ∨ u = 0x20 := by
  induction t generalizing before with
  | nil => cases h
  | cons v rest ih =>
    have hrest : ∀ {before}, u ∈ collapseFrom p before rest → u ∈ v :: rest ∨ u = 0x20 := fun h =>
      (ih h).imp_left (List.mem_cons_of_mem v)
    rw [collapseFrom] at h
    split at h
    · split at h
      · exact hrest h
      · rcases List.mem_cons.mp h with rfl | h
        · exact .inr rfl
        · exact hrest h
    · rcases List.mem_cons.mp h with rfl | h
      · exact .inl List.mem_cons_self
      · exact hrest h

theorem mem_or_eq_of_mem_squeeze {t : Text} {u : CodeUnit} (h : u ∈ t.squeeze) :
    u ∈ t ∨ u = 0x20 :=
  mem_or_eq_of_mem_collapseFrom (dropFrontSpace_subset _ (dropBackSpace_subset _ h))

theorem squeeze_congr {s t : Text} (h : s.collapsed = t.collapsed) : s.squeeze = t.squeeze := by
  rw [squeeze, squeeze, h]

theorem Tight.squeeze_eq {t : Text} (h : t.Tight) : t.squeeze = t := by
  rw [squeeze, h.collapsed_eq, dropFrontSpace_of_startsInSpace h.starts,
    dropBackSpace_of_endsInSpace h.ends]

@[simp] theorem squeeze_squeeze (t : Text) : t.squeeze.squeeze = t.squeeze := by
  by_cases h : t.squeeze = []
  · rw [h]
    rfl
  · exact (tight_squeeze h).squeeze_eq

theorem endsInSpace_append {t : Text} (h : t ≠ []) (s : Text) :
    endsInSpace (s ++ t) = endsInSpace t := by
  obtain ⟨d, u, rfl⟩ := (List.eq_nil_or_concat t).resolve_left h
  rw [List.concat_eq_append, endsInSpace, endsInSpace, ← List.append_assoc, List.getLast?_concat, List.getLast?_concat]

theorem startsInSpace_append {s : Text} (h : s ≠ []) (t : Text) :
    startsInSpace (s ++ t) = startsInSpace s := by
  obtain ⟨u, rest, rfl⟩ := List.exists_cons_of_ne_nil h
  rfl

theorem dropBackSpace_append {t : Text} (h : t ≠ []) (s : Text) :
    dropBackSpace (s ++ t) = s ++ dropBackSpace t := by
  obtain ⟨d, u, rfl⟩ := (List.eq_nil_or_concat t).resolve_left h
  rw [List.concat_eq_append, dropBackSpace, dropBackSpace, ← List.append_assoc, List.getLast?_concat, List.getLast?_concat]
  split
  · rw [List.dropLast_concat, List.dropLast_concat]
  · rw [List.append_assoc]

theorem dropFrontSpace_append {s : Text} (h : s ≠ []) (t : Text) :
    dropFrontSpace (s ++ t) = dropFrontSpace s ++ t := by
  obtain ⟨u, rest, rfl⟩ := List.exists_cons_of_ne_nil h
  rw [List.cons_append, dropFrontSpace, dropFrontSpace, List.head?_cons, List.head?_cons]
  split <;> rfl

/-- Where collapsed text begins with space, it is the space character. -/
theorem collapsed_eq_cons (t : Text) :
    t.collapsed
      = (if t.startsInSpace then [0x20] else []) ++ dropFrontSpace t.collapsed := by
  by_cases hs : t.startsInSpace = true
  · cases hc : t.collapsed with
    | nil =>
      rw [← startsInSpace_collapsed, hc] at hs
      exact absurd hs (by decide)
    | cons u rest =>
      have hmem : u ∈ collapseFrom CodeUnit.isInlineSpace false t := by
        show u ∈ t.collapsed
        rw [hc]
        exact List.mem_cons_self
      have hu : u.isInlineSpace = true := by
        rw [← startsInSpace_collapsed, hc] at hs
        simpa [startsInSpace] using hs
      rw [if_pos hs, eq_of_mem_collapseFrom hmem hu, dropFrontSpace]
      rfl
  · rw [if_neg hs, dropFrontSpace_of_startsInSpace]
    · rfl
    · rw [startsInSpace_collapsed]
      simpa using hs

/-- Where collapsed text ends with space, it is the space character. -/
theorem eq_dropBackSpace_append {t : Text} (h : t.collapsed = t) :
    t = dropBackSpace t ++ (if t.endsInSpace then [0x20] else []) := by
  by_cases hlast : t.getLast? = some 0x20
  · obtain ⟨d, rfl⟩ := List.getLast?_eq_some_iff.mp hlast
    have hends : endsInSpace (d ++ [0x20]) = true := by
      rw [endsInSpace_append (by simp)]
      decide
    rw [if_pos hends, dropBackSpace, if_pos hlast, List.dropLast_concat]
  · have hdrop : dropBackSpace t = t := if_neg hlast
    have hends := (collapsed_dropBackSpace h).2
    rw [hdrop] at hends
    simp [hdrop, hends]

/-- Collapsed text is squeezed text with a space at either end where the text has space there. -/
theorem collapsed_eq_squeeze {t : Text} (h : t.squeeze ≠ []) :
    t.collapsed = (if t.startsInSpace then [0x20] else []) ++ t.squeeze
      ++ (if t.endsInSpace then [0x20] else []) := by
  have hfront := collapsed_eq_cons t
  have hne : dropFrontSpace t.collapsed ≠ [] := by
    intro hnil
    exact h (by rw [squeeze, hnil]; rfl)
  have hends : endsInSpace (dropFrontSpace t.collapsed) = t.endsInSpace := by
    have hcollapsed := endsInSpace_collapsed t
    rwa [hfront, endsInSpace_append hne] at hcollapsed
  have hback := eq_dropBackSpace_append (collapsed_dropFrontSpace t)
  rw [hends] at hback
  rw [hfront, List.append_assoc, squeeze, ← hback]

/-- Nothing but space is squeezed to nothing. -/
theorem dropFrontSpace_of_squeeze_eq_nil {t : Text} (h : t.squeeze = []) :
    dropFrontSpace t.collapsed = [] := by
  have hback := eq_dropBackSpace_append (collapsed_dropFrontSpace t)
  have hstarts := startsInSpace_dropFrontSpace t
  rw [squeeze] at h
  rw [h, List.nil_append] at hback
  cases hends : endsInSpace (dropFrontSpace t.collapsed) with
  | true =>
    rw [hends, if_pos rfl] at hback
    rw [hback] at hstarts
    exact absurd hstarts (by decide)
  | false => rwa [hends, if_neg (by simp)] at hback

theorem collapsed_of_squeeze_eq_nil {t : Text} (h : t.squeeze = []) :
    t.collapsed = if t.startsInSpace then [0x20] else [] := by
  rw [collapsed_eq_cons t, dropFrontSpace_of_squeeze_eq_nil h, List.append_nil]

/-! ## Other classes of space -/

section Collapse

variable {p : CodeUnit → Bool} (hp : p 0x20 = true)

theorem head_collapseFrom {u : CodeUnit} (hu : p u = false) (before : Bool) (rest : Text) :
    collapseFrom p before (u :: rest) = u :: collapseFrom p false rest := by
  rw [collapseFrom, hu, if_neg (by simp)]

/-- A unit that is no space stays at the end. -/
theorem collapseFrom_concat {u : CodeUnit} (hu : p u = false) (before : Bool) (t : Text) :
    collapseFrom p before (t ++ [u]) = collapseFrom p before t ++ [u] := by
  induction t generalizing before with
  | nil => exact head_collapseFrom hu before []
  | cons v rest ih =>
    rw [List.cons_append, collapseFrom, collapseFrom, ih, ih]
    cases p v <;> cases before <;> rfl

include hp

/-- Behind a space that is out no other comes out. -/
theorem head?_collapseFrom_true (t : Text) : (collapseFrom p true t).head? ≠ some 0x20 := by
  induction t with
  | nil => simp [collapseFrom]
  | cons u rest ih =>
    rw [collapseFrom]
    cases hu : p u with
    | true => exact ih
    | false =>
      rintro h
      rw [if_neg (by simp), List.head?_cons, Option.some.injEq] at h
      rw [h, hp] at hu
      cases hu

/-- Collapsed text has no two spaces together. -/
theorem not_infix_collapseFrom (before : Bool) (t : Text) :
    ¬ [0x20, 0x20] <:+: collapseFrom p before t := by
  induction t generalizing before with
  | nil => simp [collapseFrom]
  | cons u rest ih =>
    rw [collapseFrom]
    cases hu : p u with
    | true =>
      cases before with
      | true => exact ih true
      | false =>
        intro h
        rcases List.infix_cons_iff.mp h with hprefix | hinfix
        · obtain ⟨after, hafter⟩ := (List.cons_prefix_cons.mp hprefix).2
          exact head?_collapseFrom_true hp rest (by rw [← hafter]; rfl)
        · exact ih true hinfix
    | false =>
      intro h
      rcases List.infix_cons_iff.mp h with hprefix | hinfix
      · obtain ⟨rfl, -⟩ := List.cons_prefix_cons.mp hprefix
        rw [hp] at hu
        cases hu
      · exact ih false hinfix

end Collapse

/-! ## Texts one after the other -/

/-- Two texts with a space between them, unless one of them is empty. -/
def joinSpaced (s t : Text) : Text :=
  if s = [] then t else if t = [] then s else s ++ 0x20 :: t

/-- Where space comes between, each side is squeezed on its own. -/
theorem squeeze_append {s t : Text} (h : s = [] ∨ s.endsInSpace = true) :
    (s ++ t).squeeze = joinSpaced s.squeeze t.squeeze := by
  rcases h with rfl | h
  · rfl
  have hcollapsed : (s ++ t).collapsed = s.collapsed ++ dropFrontSpace t.collapsed := by
    rw [collapsed_append, glue, endsInSpace_collapsed, if_pos h]
  have hne : s ≠ [] := by
    rintro rfl
    exact absurd h (by decide)
  by_cases hs : s.squeeze = []
  · -- The space in front goes with the space at the front of the rest.
    have hspace : s.collapsed = [0x20] := by
      have heq := collapsed_of_squeeze_eq_nil hs
      split at heq
      · exact heq
      · exact absurd heq (collapsed_ne_nil hne)
    rw [joinSpaced, if_pos hs, squeeze, hcollapsed, hspace]
    rfl
  · have htight := tight_squeeze hs
    have heq := collapsed_eq_squeeze hs
    rw [if_pos h] at heq
    have hfront : dropFrontSpace (s ++ t).collapsed
        = s.squeeze ++ 0x20 :: dropFrontSpace t.collapsed := by
      rw [hcollapsed, heq]
      cases s.startsInSpace with
      | true => simp [dropFrontSpace]
      | false =>
        rw [dropFrontSpace_of_startsInSpace]
        · simp
        · simp only [Bool.false_eq_true, if_false, List.nil_append, List.append_assoc]
          rw [startsInSpace_append hs]
          exact htight.starts
    rw [joinSpaced, if_neg hs, squeeze, hfront]
    by_cases ht : t.squeeze = []
    · rw [if_pos ht, dropFrontSpace_of_squeeze_eq_nil ht]
      simp [dropBackSpace]
    · have hd : dropFrontSpace t.collapsed ≠ [] := by
        intro hnil
        exact ht (by rw [squeeze, hnil]; rfl)
      rw [if_neg ht, ← List.singleton_append, ← List.append_assoc, dropBackSpace_append hd,
        List.append_assoc]
      rfl

theorem joinSpaced_nil (s : Text) : joinSpaced s [] = s := by
  unfold joinSpaced
  split
  · next hs => exact hs.symm
  · rfl

theorem endsInSpace_of_forall {t : Text} (hne : t ≠ [])
    (h : ∀ u ∈ t, CodeUnit.isInlineSpace u = true) : t.endsInSpace = true := by
  obtain ⟨d, u, rfl⟩ := (List.eq_nil_or_concat t).resolve_left hne
  rw [List.concat_eq_append, endsInSpace, List.getLast?_concat]
  exact h u (by simp)

/-- Nothing but space is one space. -/
theorem collapsed_of_space {t : Text} (hne : t ≠ [])
    (h : ∀ u ∈ t, CodeUnit.isInlineSpace u = true) : t.collapsed = [0x20] := by
  have hrest : ∀ t : Text, (∀ u ∈ t, CodeUnit.isInlineSpace u = true) →
      collapseFrom CodeUnit.isInlineSpace true t = [] := by
    intro t ht
    induction t with
    | nil => rfl
    | cons u rest ih =>
      rw [collapseFrom, ht u List.mem_cons_self]
      exact ih fun v hv => ht v (List.mem_cons_of_mem _ hv)
  obtain ⟨u, rest, rfl⟩ := List.exists_cons_of_ne_nil hne
  rw [collapsed, collapse, collapseFrom, h u List.mem_cons_self,
    hrest rest fun v hv => h v (List.mem_cons_of_mem _ hv)]
  rfl

/-- Space at the end goes. -/
theorem squeeze_append_of_space (s : Text) {t : Text}
    (h : ∀ u ∈ t, CodeUnit.isInlineSpace u = true) : (s ++ t).squeeze = s.squeeze := by
  by_cases ht : t = []
  · rw [ht, List.append_nil]
  have hcollapsed : (s ++ t).collapsed = s.collapsed ++ if s.endsInSpace then [] else [0x20] := by
    rw [collapsed_append, glue, endsInSpace_collapsed, collapsed_of_space ht h]
    rfl
  cases hends : s.endsInSpace with
  | true =>
    rw [hends, if_pos rfl, List.append_nil] at hcollapsed
    exact squeeze_congr hcollapsed
  | false =>
    rw [hends, if_neg (by simp)] at hcollapsed
    by_cases hs : s = []
    · rw [squeeze, hcollapsed, hs]
      rfl
    · -- The space that is added is the one that is dropped.
      have hlast : endsInSpace (dropFrontSpace s.collapsed) = false := by
        by_cases hd : dropFrontSpace s.collapsed = []
        · rw [hd]
          rfl
        · rw [← endsInSpace_append hd, ← collapsed_eq_cons, endsInSpace_collapsed, hends]
      rw [squeeze, squeeze, hcollapsed, dropFrontSpace_append (collapsed_ne_nil hs),
        dropBackSpace_append (by simp), dropBackSpace_of_endsInSpace hlast]
      exact List.append_nil _

/-- Space at the front goes. -/
theorem squeeze_append_of_space_left {s : Text} (h : ∀ u ∈ s, CodeUnit.isInlineSpace u = true)
    (t : Text) : (s ++ t).squeeze = t.squeeze := by
  have hends : s = [] ∨ s.endsInSpace = true := by
    rcases List.eq_nil_or_concat s with hnil | ⟨rest, u, rfl⟩
    · exact .inl hnil
    · refine .inr ?_
      rw [endsInSpace, List.concat_eq_append, List.getLast?_concat, Option.any_some]
      exact h u (by simp)
  have hsqueeze : s.squeeze = [] := squeeze_append_of_space [] h
  rw [squeeze_append hends, hsqueeze, joinSpaced, if_pos rfl]

theorem join_singleton (separator t : Text) : join separator [t] = t := by
  simp [join, List.intercalate]

theorem join_cons_cons (separator s t : Text) (rest : List Text) :
    join separator (s :: t :: rest) = s ++ (separator ++ join separator (t :: rest)) := by
  simp [join, List.intercalate]

/-- One more text at the end of texts with a space between any two. -/
theorem join_concat {ts : List Text} (hts : ∀ t ∈ ts, t ≠ []) {t : Text} (ht : t ≠ []) :
    join [0x20] (ts ++ [t]) = joinSpaced (join [0x20] ts) t := by
  induction ts with
  | nil => rw [List.nil_append, join_singleton]; rfl
  | cons s rest ih =>
    have hs := hts s List.mem_cons_self
    have hrest := ih fun t ht => hts t (List.mem_cons_of_mem _ ht)
    cases rest with
    | nil =>
      rw [List.singleton_append, join_cons_cons, join_singleton, join_singleton, joinSpaced, if_neg hs,
        if_neg ht]
      rfl
    | cons s' rest =>
      have hne : join [0x20] (s' :: rest) ≠ [] := by
        cases rest with
        | nil => rw [join_singleton]; exact hts s' (by simp)
        | cons s'' rest => rw [join_cons_cons]; simp
      rw [List.cons_append] at hrest ⊢
      rw [List.cons_append, join_cons_cons, hrest, join_cons_cons, joinSpaced, joinSpaced, if_neg hne,
        if_neg ht, if_neg (by simp [hs]), if_neg ht]
      simp

/-- Space around a text goes. -/
theorem Tight.squeeze_surrounded {t : Text} (h : t.Tight) {before after : Text}
    (hb : before = [] ∨ before = [0x20]) (ha : after = [] ∨ after = [0x20]) :
    squeeze (before ++ (t ++ after)) = t := by
  have hspace : ∀ {s : Text}, s = [] ∨ s = [0x20] → ∀ u ∈ s, CodeUnit.isInlineSpace u = true := by
    rintro s (rfl | rfl) u hu
    · cases hu
    · rw [List.mem_singleton.mp hu]
      decide
  rw [squeeze_append_of_space_left (hspace hb), squeeze_append_of_space t (hspace ha), h.squeeze_eq]

end Text

/-! ## Normal form -/

variable {P : Type}

namespace Inline

/-- A node as content in normal form has it: text with something in it, or a node of another kind
whose characters have no space at their ends. -/
def Sound : Inline P → Prop
  | text _ t => t ≠ []
  | hardBreak _ => False
  | n => n.plainText.Tight

/-- No two texts stand next to each other. -/
def Separate : List (Inline P) → Prop
  | [] => True
  | n :: rest => (n.isText = true → ∀ m ∈ rest.head?, m.isText = false) ∧ Separate rest

theorem plainTextOf_append (ms ns : List (Inline P)) :
    plainTextOf (ms ++ ns) = plainTextOf ms ++ plainTextOf ns := by
  induction ms with
  | nil => rfl
  | cons m rest ih => rw [List.cons_append, plainTextOf, plainTextOf, ih, List.append_assoc]

/-- Any other node than text is tight. -/
theorem Sound.tight {n : Inline P} (h : n.Sound) (ht : n.isText = false) : n.plainText.Tight := by
  cases n with
  | text i t => exact absurd ht (by simp [isText])
  | hardBreak i => exact h.elim
  | _ => exact h

theorem Sound.plainText_ne_nil {n : Inline P} (h : n.Sound) : n.plainText ≠ [] := by
  cases n with
  | text i t => exact h
  | hardBreak i => exact h.elim
  | _ => exact h.ne_nil

theorem Sound.isHardBreak {n : Inline P} (h : n.Sound) : n.isHardBreak = false := by
  cases n with
  | hardBreak i => exact h.elim
  | _ => rfl

theorem plainTextOf_mergeInto (n : Inline P) (rest : List (Inline P)) :
    plainTextOf (mergeInto n rest) = n.plainText ++ plainTextOf rest := by
  unfold mergeInto
  split
  · simp [plainTextOf, plainText, joinTexts]
  · rfl

theorem sound_of_mem_mergeInto {n m : Inline P} {rest : List (Inline P)} (hn : n.Sound)
    (h : ∀ m ∈ rest, m.Sound) (hm : m ∈ mergeInto n rest) : m.Sound := by
  unfold mergeInto at hm
  split at hm
  · rcases List.mem_cons.mp hm with rfl | hm
    · exact List.append_ne_nil_of_left_ne_nil hn _
    · exact h m (List.mem_cons_of_mem _ hm)
  · rcases List.mem_cons.mp hm with rfl | hm
    · exact hn
    · exact h m hm

theorem separate_mergeInto (n : Inline P) {rest : List (Inline P)} (h : Separate rest) :
    Separate (mergeInto n rest) := by
  cases n with
  | text i s =>
    cases rest with
    | nil => exact ⟨fun _ m hm => by simp at hm, h⟩
    | cons m tail =>
      cases m with
      | text j t => exact ⟨fun _ => h.1 rfl, h.2⟩
      | _ =>
        refine ⟨fun _ m hm => ?_, h⟩
        rw [List.head?_cons, Option.mem_def, Option.some.injEq] at hm
        exact hm ▸ rfl
  | _ => exact ⟨fun ht => absurd ht (by simp [isText]), h⟩

/-- Merging keeps the characters and sound nodes, and leaves no two texts side by side. -/
theorem mergeTexts_spec {ns : List (Inline P)} (h : ∀ n ∈ ns, n.Sound) :
    plainTextOf (mergeTexts ns) = plainTextOf ns ∧ (∀ n ∈ mergeTexts ns, n.Sound) ∧
      Separate (mergeTexts ns) := by
  induction ns with
  | nil => exact ⟨rfl, by simp [mergeTexts], trivial⟩
  | cons n rest ih =>
    obtain ⟨hplain, hsound, hsep⟩ := ih fun m hm => h m (List.mem_cons_of_mem _ hm)
    have hmerge : mergeTexts (n :: rest) = mergeInto n (mergeTexts rest) := rfl
    rw [hmerge, plainTextOf_mergeInto, hplain]
    exact ⟨rfl, fun m => sound_of_mem_mergeInto (h n List.mem_cons_self) hsound,
      separate_mergeInto n hsep⟩

/-- The space that tidying drops from collapsed text. -/
def trimEdges (atEdge : Bool) (t : Text) : Text :=
  dropBackSpace (if atEdge then dropFrontSpace t else t)

theorem trimEdges_append {t : Text} (ht : t ≠ []) (hstart : t.startsInSpace = false)
    (atEdge : Bool) (s : Text) :
    trimEdges atEdge (s ++ t) = (if atEdge then dropFrontSpace s else s) ++ trimEdges false t := by
  have hback : ∀ s : Text, dropBackSpace (s ++ t) = s ++ trimEdges false t :=
    Text.dropBackSpace_append ht
  cases atEdge with
  | false => exact hback s
  | true =>
    by_cases hs : s = []
    · subst hs
      show dropBackSpace (dropFrontSpace t) = dropBackSpace t
      rw [Text.dropFrontSpace_of_startsInSpace hstart]
    · show dropBackSpace (dropFrontSpace (s ++ t)) = _
      rw [Text.dropFrontSpace_append hs, hback]
      rfl

theorem trimEdges_append_of_tight {s : Text} (hs : s.Tight) (atEdge : Bool) (t : Text) :
    trimEdges atEdge (s ++ t) = s ++ trimEdges false t := by
  have hfront : (if atEdge then dropFrontSpace (s ++ t) else s ++ t) = s ++ t := by
    rw [Text.dropFrontSpace_append hs.ne_nil, Text.dropFrontSpace_of_startsInSpace hs.starts, ite_self]
  rw [trimEdges, hfront]
  by_cases ht : t = []
  · subst ht
    rw [List.append_nil, Text.dropBackSpace_of_endsInSpace hs.ends]
    simp [trimEdges, dropBackSpace]
  · exact Text.dropBackSpace_append ht s

/-- Tidying collapses the characters and drops the space at the edges. -/
theorem plainTextOf_tidyTexts {ns : List (Inline P)} (h : ∀ n ∈ ns, n.Sound) (hsep : Separate ns)
    (atEdge : Bool) :
    plainTextOf (tidyTexts atEdge ns) = trimEdges atEdge (plainTextOf ns).collapsed := by
  induction ns generalizing atEdge with
  | nil => cases atEdge <;> rfl
  | cons n rest ih =>
    have hn := h n List.mem_cons_self
    have hrest : ∀ m ∈ rest, m.Sound := fun m hm => h m (List.mem_cons_of_mem _ hm)
    have htail := ih hrest hsep.2 false
    by_cases ht : n.isText = true
    · cases n with
      | text i t =>
        cases rest with
        | nil => simp [tidyTexts, plainTextOf, plainText, edgeFirst, trimEdges]
        | cons m tail =>
          -- A text meets a node without space at its front.
          have hm := hrest m List.mem_cons_self
          have htight := hm.tight (hsep.1 rfl m rfl)
          have hstart : (plainTextOf (m :: tail)).startsInSpace = false := by
            rw [plainTextOf, Text.startsInSpace_append htight.ne_nil, htight.starts]
          have hne : plainTextOf (m :: tail) ≠ [] := by
            rw [plainTextOf]
            exact List.append_ne_nil_of_left_ne_nil htight.ne_nil _
          have hedge : edgeFirst (m :: tail) = false := hm.isHardBreak
          rw [tidyTexts, hedge, plainTextOf, htail]
          show _ = trimEdges atEdge (t ++ plainTextOf (m :: tail)).collapsed
          rw [Text.collapsed_append_of_or (.inr hstart), trimEdges_append (Text.collapsed_ne_nil hne)
            (by rw [Text.startsInSpace_collapsed, hstart])]
          rfl
      | _ => exact absurd ht (by simp [isText])
    · have htight := hn.tight (by simpa using ht)
      have hshape : tidyTexts atEdge (n :: rest) = n :: tidyTexts false rest := by
        cases n with
        | text i t => exact absurd rfl ht
        | hardBreak i => exact hn.elim
        | _ => rfl
      rw [hshape, plainTextOf, htail, plainTextOf, Text.collapsed_append_of_or (.inl htight.ends),
        htight.collapsed_eq, trimEdges_append_of_tight htight]

theorem sound_of_mem_tidyTexts {ns : List (Inline P)} (h : ∀ n ∈ ns, n.Sound) {atEdge : Bool}
    {n : Inline P} (hn : n ∈ tidyTexts atEdge ns) (hne : n.isEmptyText = false) : n.Sound := by
  induction ns generalizing atEdge with
  | nil => simp [tidyTexts] at hn
  | cons m rest ih =>
    have hm := h m List.mem_cons_self
    have hrest : ∀ m ∈ rest, m.Sound := fun m hm => h m (List.mem_cons_of_mem _ hm)
    cases m with
    | text i t =>
      rw [tidyTexts] at hn
      rcases List.mem_cons.mp hn with rfl | hn
      · intro hnil
        simp [isEmptyText, hnil] at hne
      · exact ih hrest hn
    | hardBreak i => exact hm.elim
    | _ =>
      rw [tidyTexts] at hn
      · rcases List.mem_cons.mp hn with rfl | hn
        · exact hm
        · exact ih hrest hn
      · simp

theorem plainTextOf_filter (ns : List (Inline P)) :
    plainTextOf (ns.filter (!·.isEmptyText)) = plainTextOf ns := by
  induction ns with
  | nil => rfl
  | cons n rest ih =>
    rw [List.filter_cons]
    cases hn : n.isEmptyText with
    | false => rw [Bool.not_false, if_pos rfl, plainTextOf, plainTextOf, ih]
    | true =>
      have hnil : n.plainText = [] := by
        cases n with
        | text i t => simpa [isEmptyText, plainText] using hn
        | _ => exact absurd hn (by simp [isEmptyText])
      rw [Bool.not_true, if_neg (by simp), plainTextOf, hnil, List.nil_append, ih]

theorem dropWhile_isHardBreak {ns : List (Inline P)} (h : ∀ n ∈ ns, n.Sound) :
    ns.dropWhile isHardBreak = ns := by
  cases ns with
  | nil => rfl
  | cons n rest => rw [List.dropWhile_cons, (h n List.mem_cons_self).isHardBreak]; rfl

/-- Normal form collapses the characters and drops the space at both ends. -/
theorem normalize_spec {ns : List (Inline P)} (h : ∀ n ∈ ns, n.Sound) :
    plainTextOf (normalize ns) = (plainTextOf ns).squeeze ∧ ∀ n ∈ normalize ns, n.Sound := by
  obtain ⟨hplain, hsound, hsep⟩ := mergeTexts_spec h
  have htidy : ∀ n ∈ (tidyTexts true (mergeTexts ns)).filter (!·.isEmptyText), n.Sound := by
    intro n hn
    obtain ⟨hmem, hne⟩ := List.mem_filter.mp hn
    exact sound_of_mem_tidyTexts hsound hmem (by simpa using hne)
  have heq : normalize ns = (tidyTexts true (mergeTexts ns)).filter (!·.isEmptyText) := by
    rw [normalize, trimHardBreaks, dropWhile_isHardBreak htidy, dropWhile_isHardBreak, List.reverse_reverse]
    intro n hn
    exact htidy n (List.mem_reverse.mp hn)
  rw [heq]
  refine ⟨?_, htidy⟩
  rw [plainTextOf_filter, plainTextOf_tidyTexts hsound hsep, hplain]
  rfl

/-- The normal form of a single text. -/
theorem normalize_single (i : NodeInfo P) (t : Text) :
    normalize [.text i t]
      = if t.squeeze = [] then [] else [.text { start := i.start, stop := i.stop } t.squeeze] := by
  have htidy : tidyTexts true (mergeTexts [.text i t])
      = [.text { start := i.start, stop := i.stop } t.squeeze] := by
    simp [mergeTexts, mergeInto, tidyTexts, edgeFirst, Text.squeeze]
  rw [normalize, htidy, List.filter_cons, isEmptyText]
  by_cases h : t.squeeze = []
  · rw [if_pos h, h]
    rfl
  · rw [if_neg h, if_pos (by simpa using h)]
    rfl

theorem normalize_text (i : NodeInfo P) {t : Text} (h : t.squeeze ≠ []) :
    normalize [.text i t] = [.text { start := i.start, stop := i.stop } t.squeeze] := by
  rw [normalize_single, if_neg h]

/-- Sound content without characters is empty. -/
theorem plainTextOf_eq_nil {ns : List (Inline P)} (h : ∀ n ∈ ns, n.Sound) :
    plainTextOf ns = [] ↔ ns = [] := by
  cases ns with
  | nil => simp [plainTextOf]
  | cons n rest =>
    rw [plainTextOf]
    simp [(h n List.mem_cons_self).plainText_ne_nil]

end Inline

/-! ## Content in the making -/

namespace Fragments

/-- The characters gathered so far. -/
def chars (f : Fragments P) : Text := Inline.plainTextOf f.toList

/-- Nothing but sound nodes was gathered. -/
def Sound (f : Fragments P) : Prop := ∀ n ∈ f.toList, n.Sound

theorem toList_eq (f : Fragments P) :
    f.toList = f.nodes.reverse ++ f.pending?.toList.map OpenText.toInline := by
  rw [toList, flush]
  cases f.pending? with
  | none => simp
  | some t => simp

variable {f : Fragments}

theorem chars_pushText (f : Fragments) (start stop : Nat) (t : Text) :
    (f.pushText start stop t).chars = f.chars ++ t := by
  rw [chars, chars, toList_eq, toList_eq, pushText]
  cases f.pending? with
  | none => simp [Inline.plainTextOf_append, Inline.plainTextOf, OpenText.toInline, Inline.plainText]
  | some open? => simp [Inline.plainTextOf_append, Inline.plainTextOf, OpenText.toInline,
      Inline.plainText]

theorem Sound.pushText (h : f.Sound) {t : Text} (ht : t ≠ []) (start stop : Nat) :
    (f.pushText start stop t).Sound := by
  intro n hn
  rw [toList_eq, Fragments.pushText] at hn
  rcases List.mem_append.mp hn with hn | hn
  · exact h n (by rw [toList_eq]; exact List.mem_append_left _ hn)
  · cases hp : f.pending? with
    | none =>
      rw [hp] at hn
      rw [show n = _ by simpa using hn]
      simpa [OpenText.toInline, Inline.Sound] using ht
    | some opened =>
      rw [hp] at hn
      rw [show n = _ by simpa using hn]
      simp [OpenText.toInline, Inline.Sound, ht]

theorem toList_push (f : Fragments P) (n : Inline P) : (f.push n).toList = f.toList ++ [n] := by
  simp [toList, push, flush]

theorem chars_push (f : Fragments) (n : Inline) : (f.push n).chars = f.chars ++ n.plainText := by
  rw [chars, chars, toList_push, Inline.plainTextOf_append]
  simp [Inline.plainTextOf]


/-! ### What holds of all nodes gathered -/

section Forall

variable {p : Inline → Prop} (htext : ∀ i : NodeInfo, i.flags = {} → ∀ t, p (.text i t))

include htext

theorem forall_pushText (h : ∀ n ∈ f.toList, p n) (start stop : Nat) (t : Text) :
    ∀ n ∈ (f.pushText start stop t).toList, p n := by
  intro n hn
  rw [toList_eq, Fragments.pushText] at hn
  rcases List.mem_append.mp hn with hn | hn
  · exact h n (by rw [toList_eq]; exact List.mem_append_left _ hn)
  · -- The open text is a node without marks.
    rw [List.mem_singleton.mp hn]
    exact htext _ rfl _

omit htext in
theorem forall_push (h : ∀ n ∈ f.toList, p n) {n : Inline} (hn : p n) :
    ∀ m ∈ (f.push n).toList, p m := by
  intro m hm
  rw [toList_push] at hm
  rcases List.mem_append.mp hm with hm | hm
  · exact h m hm
  · exact List.mem_singleton.mp hm ▸ hn

theorem forall_pushAll (h : ∀ n ∈ f.toList, p n) {ns : List Inline} (hns : ∀ n ∈ ns, p n) :
    ∀ n ∈ (f.pushAll ns).toList, p n := by
  induction ns generalizing f with
  | nil => exact h
  | cons n rest ih =>
    have hrest : ∀ m ∈ rest, p m := fun m hm => hns m (List.mem_cons_of_mem _ hm)
    cases n with
    | text i t => exact ih (forall_pushText htext h i.start i.stop t) hrest
    | _ => exact ih (forall_push h (hns _ List.mem_cons_self)) hrest

end Forall

theorem Sound.push (h : f.Sound) {n : Inline} (hn : n.Sound) : (f.push n).Sound := forall_push h hn

theorem pushAll_spec (h : f.Sound) {ns : List Inline} (hns : ∀ n ∈ ns, n.Sound) :
    (f.pushAll ns).chars = f.chars ++ Inline.plainTextOf ns ∧ (f.pushAll ns).Sound := by
  induction ns generalizing f with
  | nil => exact ⟨by simp [pushAll, Inline.plainTextOf], h⟩
  | cons n rest ih =>
    have hn := hns n List.mem_cons_self
    have hrest : ∀ m ∈ rest, m.Sound := fun m hm => hns m (List.mem_cons_of_mem _ hm)
    cases n with
    | text i t =>
      obtain ⟨hchars, hsound⟩ := ih (h.pushText hn i.start i.stop) hrest
      refine ⟨?_, hsound⟩
      rw [chars_pushText, List.append_assoc] at hchars
      exact hchars
    | hardBreak i => exact hn.elim
    | _ =>
      obtain ⟨hchars, hsound⟩ := ih (h.push hn) hrest
      refine ⟨?_, hsound⟩
      rw [chars_push, List.append_assoc] at hchars
      exact hchars

theorem leadingSpace_eq (h : f.Sound) : f.leadingSpace = f.chars.startsInSpace := by
  rw [leadingSpace, chars]
  cases hl : f.toList with
  | nil => rfl
  | cons n rest =>
    have hn := h n (hl ▸ List.mem_cons_self)
    rw [Inline.plainTextOf, Text.startsInSpace_append hn.plainText_ne_nil]
    cases n with
    | text i t => rfl
    | hardBreak i => exact hn.elim
    | _ => exact (hn.tight rfl).starts.symm

theorem trailingSpace_eq (h : f.Sound) : f.trailingSpace = f.chars.endsInSpace := by
  have hlist : f.toList = f.flush.nodes.reverse := rfl
  rw [trailingSpace, chars]
  cases hl : f.flush.nodes with
  | nil => rw [hlist, hl]; rfl
  | cons n rest =>
    rw [hl, List.reverse_cons] at hlist
    have hn := h n (by rw [hlist]; simp)
    have hsingle : Inline.plainTextOf [n] = n.plainText := by simp [Inline.plainTextOf]
    rw [hlist, Inline.plainTextOf_append, hsingle, Text.endsInSpace_append hn.plainText_ne_nil]
    cases n with
    | text i t => rfl
    | hardBreak i => exact hn.elim
    | _ => exact (hn.tight rfl).ends.symm

theorem finish_spec (h : f.Sound) :
    Inline.plainTextOf f.finish = f.chars.squeeze ∧ ∀ n ∈ f.finish, n.Sound :=
  Inline.normalize_spec h

end Fragments

end LatexMarkdown
