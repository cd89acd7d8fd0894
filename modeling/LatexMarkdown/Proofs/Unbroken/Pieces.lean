import LatexMarkdown.Parse.CodeBody
import LatexMarkdown.Proofs.Spacing
import Mathlib.Data.List.TakeWhile
/-!
  Texts without a line feed, and how they come about.

  A text is `Unbroken` when no line feed is in it.  So are the pieces of a text between its line
  feeds, texts whose space is collapsed, and the language that the body of a code environment names:
  it is read from one line, and lower case makes no line feed (`Text.Unbroken.toLower`).
-/
namespace LatexMarkdown

namespace Text

/-- No line feed stands in a text. -/
def Unbroken (t : Text) : Prop := 0x0A ∉ t

instance (t : Text) : Decidable t.Unbroken := inferInstanceAs (Decidable (0x0A ∉ t))

/-- A text is its last line, or a line and what stands behind its line feed. -/
theorem line_induction {motive : Text → Prop} (last : ∀ l, Unbroken l → motive l)
    (line : ∀ l t, Unbroken l → motive t → motive (l ++ 0x0A :: t)) (t : Text) : motive t := by
  induction hn : t.length using Nat.strong_induction_on generalizing t with
  | _ n ih =>
    by_cases ht : t.Unbroken
    · exact last t ht
    · obtain ⟨l, rest, rfl, hl⟩ := List.eq_append_cons_of_mem (Classical.not_not.mp ht)
      refine line l rest hl (ih rest.length ?_ rest rfl)
      rw [← hn, List.length_append, List.length_cons]
      omega

variable {s t : Text}

namespace Unbroken

theorem nil : Unbroken [] := List.not_mem_nil

theorem append (hs : s.Unbroken) (ht : t.Unbroken) : (s ++ t).Unbroken := by
  intro h
  exact (List.mem_append.mp h).elim hs ht

theorem mono (ht : t.Unbroken) (h : s ⊆ t) : s.Unbroken := fun hmem => ht (h hmem)

theorem replicate (n : Nat) {u : CodeUnit} (h : u ≠ 0x0A) : Unbroken (List.replicate n u) :=
  fun hmem => h (List.eq_of_mem_replicate hmem).symm

/-- Every line feed is collapsed by a class of space that has it. -/
theorem collapse {p : CodeUnit → Bool} (h : p 0x0A = true) (t : Text) :
    Unbroken (t.collapse p) := by
  intro hmem
  have hspace : (0x0A : CodeUnit) = 0x20 := eq_of_mem_collapseFrom hmem h
  exact absurd hspace (by decide)

theorem join {separator : Text} (hs : separator.Unbroken) {ts : List Text}
    (h : ∀ t ∈ ts, t.Unbroken) : (Text.join separator ts).Unbroken := by
  induction ts with
  | nil => exact .nil
  | cons t rest ih =>
    have ht := h t List.mem_cons_self
    have hrest := ih fun s hs => h s (List.mem_cons_of_mem _ hs)
    cases rest with
    | nil => rwa [join_singleton]
    | cons s rest =>
      rw [join_cons_cons]
      exact ht.append (hs.append hrest)

theorem replaceEach (ht : t.Unbroken) {p : CodeUnit → Bool} {f : CodeUnit → Text}
    (h : ∀ u, p u = true → (f u).Unbroken) : (t.replaceEach p f).Unbroken := by
  intro hmem
  obtain ⟨u, hu, hmem⟩ := List.mem_flatMap.mp hmem
  split at hmem
  · next hp => exact h u hp hmem
  · exact ht (List.mem_singleton.mp hmem ▸ hu)

end Unbroken

/-! ## Pieces -/

theorem subset_of_mem_splitOn {u : CodeUnit} {piece : Text} (h : piece ∈ t.splitOn u) :
    piece ⊆ t := by
  induction t generalizing piece with
  | nil =>
    rw [List.mem_singleton.mp h]
    exact List.Subset.refl _
  | cons c rest ih =>
    rw [splitOn] at h
    split at h
    · rcases List.mem_cons.mp h with rfl | h
      · exact List.nil_subset _
      · exact List.Subset.trans (ih h) (List.subset_cons_self _ _)
    · -- The unit goes to the front of the first piece.
      obtain ⟨first, pieces, heq⟩ := List.exists_cons_of_ne_nil (splitOn_ne_nil u rest)
      rw [heq] at h ih
      rcases List.mem_cons.mp h with rfl | h
      · exact List.cons_subset_cons c (ih List.mem_cons_self)
      · exact List.Subset.trans (ih (List.mem_cons_of_mem _ h)) (List.subset_cons_self _ _)

/-- The pieces between line feeds have none. -/
theorem unbroken_of_mem_splitOn {piece : Text} (h : piece ∈ t.splitOn 0x0A) : piece.Unbroken := by
  induction t generalizing piece with
  | nil =>
    rw [List.mem_singleton.mp h]
    exact .nil
  | cons c rest ih =>
    rw [splitOn] at h
    split at h
    · rcases List.mem_cons.mp h with rfl | h
      · exact .nil
      · exact ih h
    · next hc =>
      obtain ⟨first, pieces, heq⟩ := List.exists_cons_of_ne_nil (splitOn_ne_nil 0x0A rest)
      rw [heq] at h ih
      rcases List.mem_cons.mp h with rfl | h
      · intro hmem
        rcases List.mem_cons.mp hmem with hfirst | hmem
        · exact hc hfirst.symm
        · exact ih List.mem_cons_self hmem
      · exact ih (List.mem_cons_of_mem _ h)

/-- Splitting behind a text without line feeds. -/
theorem splitOn_append_lineFeed (ht : t.Unbroken) (s : Text) :
    (t ++ 0x0A :: s).splitOn 0x0A = t :: s.splitOn 0x0A := by
  induction t with
  | nil => rw [List.nil_append, splitOn, if_pos rfl]
  | cons c rest ih =>
    have hc : c ≠ 0x0A := fun hc => ht (hc ▸ List.mem_cons_self)
    rw [List.cons_append, splitOn, if_neg hc, ih (ht.mono (List.subset_cons_self _ _))]

theorem splitOn_of_unbroken (ht : t.Unbroken) : t.splitOn 0x0A = [t] := by
  induction t with
  | nil => rfl
  | cons c rest ih =>
    have hc : c ≠ 0x0A := fun hc => ht (hc ▸ List.mem_cons_self)
    rw [splitOn, if_neg hc, ih (ht.mono (List.subset_cons_self _ _))]

/-- Lines without line feeds are read back from the text that they make up. -/
theorem splitOn_join {lines : List Text} (hne : lines ≠ []) (h : ∀ l ∈ lines, Unbroken l) :
    (join [0x0A] lines).splitOn 0x0A = lines := by
  induction lines with
  | nil => exact absurd rfl hne
  | cons l rest ih =>
    have hl := h l List.mem_cons_self
    cases rest with
    | nil => rw [join_singleton, splitOn_of_unbroken hl]
    | cons m rest =>
      rw [join_cons_cons, List.singleton_append, splitOn_append_lineFeed hl,
        ih (by simp) fun l hl => h l (List.mem_cons_of_mem _ hl)]

/-- Some of these lines, one behind the other, are found again among those of the text. -/
theorem infix_splitOn_join {ls lines : List Text} (h : ls <:+: lines)
    (hl : ∀ l ∈ lines, Unbroken l) : ls <:+: (join [0x0A] lines).splitOn 0x0A := by
  by_cases hnil : lines = []
  · -- No lines make up the empty text, which has one line.
    rw [hnil] at h
    exact List.eq_nil_of_infix_nil h ▸ List.nil_infix
  · rwa [splitOn_join hnil hl]

/-! ## Lower case -/

/-- A code point that is no line feed. -/
structure Plain (n : Nat) : Prop where
  lt : n < 0x110000
  ne : n ≠ 0x0A

/-- A number that is no character stands for the null character. -/
theorem plain_ofNat {n : Nat} (h : n ≠ 0x0A) : Plain (Char.ofNat n).toNat := by
  by_cases hvalid : n.isValidChar
  · have hchar : Char.ofNat n = Char.ofNatAux n hvalid := dif_pos hvalid
    have hlt : n < 0x110000 := by
      rcases hvalid with hlt | ⟨-, hlt⟩
      · omega
      · exact hlt
    rw [hchar]
    show Plain n
    exact ⟨hlt, h⟩
  · rw [Char.ofNat, dif_neg hvalid]
    exact ⟨by decide, by decide⟩

theorem plain_single {u : CodeUnit} (hu : u ≠ 0x0A) : Plain (single u).point := by
  have hlt : u.toNat < 0x10000 := u.toNat_lt
  have hne : u.toNat ≠ 0x0A := fun h => hu (UInt16.toNat_inj.mp h)
  unfold single
  split
  · show Plain u.toNat
    exact ⟨by omega, hne⟩
  · exact plain_ofNat hne

theorem plain_pairChar (u v : CodeUnit) : Plain (Scalar.char (pairChar u v)).point :=
  plain_ofNat (by omega)

/-- The code points of a text without line feeds. -/
theorem Unbroken.plain_of_mem_points (ht : t.Unbroken) {n : Nat} (h : n ∈ t.points) : Plain n := by
  obtain ⟨x, hx, rfl⟩ := List.mem_map.mp h
  clear h
  fun_induction scalars t with
  | case1 => cases hx
  | case2 u =>
    rw [List.mem_singleton.mp hx]
    exact plain_single fun hu => ht (hu ▸ List.mem_singleton.mpr rfl)
  | case3 u v rest hpair ih =>
    rcases List.mem_cons.mp hx with rfl | hx
    · exact plain_pairChar u v
    · refine ih (ht.mono ?_) hx
      exact List.Subset.trans (List.subset_cons_self _ _) (List.subset_cons_self _ _)
  | case4 u v rest hpair ih =>
    rcases List.mem_cons.mp hx with rfl | hx
    · exact plain_single fun hu => ht (hu ▸ List.mem_cons_self)
    · exact ih (ht.mono (List.subset_cons_self _ _)) hx

/-- The table has no line feed among its lower-case forms. -/
theorem plain_lower {n : Nat} (h : Plain n) : Plain (CaseTable.lower n) := by
  have htable : ∀ r ∈ CaseTable.lowerRuns,
      0x0A < r.first + r.delta ∧ r.last + r.delta < 0x110000 := by decide +kernel
  unfold CaseTable.lower
  split
  · next r hr =>
    obtain ⟨hfirst, hlast⟩ := htable r (List.mem_of_find?_eq_some hr)
    have hrange := List.find?_some hr
    simp only [Bool.and_eq_true, decide_eq_true_eq] at hrange
    exact ⟨by omega, by omega⟩
  · exact h

theorem plain_of_mem_lowerPoints {before ns : List Nat} (h : ∀ n ∈ ns, Plain n) {m : Nat}
    (hm : m ∈ lowerPoints before ns) : Plain m := by
  induction ns generalizing before with
  | nil => cases hm
  | cons n rest ih =>
    rcases List.mem_append.mp hm with hm | hm
    · have hspecial : ∀ k ∈ [0x69, 0x307, 0x3C2, 0x3C3], Plain k := by
        intro k hk
        simp only [List.mem_cons, List.not_mem_nil, or_false] at hk
        exact ⟨by omega, by omega⟩
      unfold lowerPoint at hm
      -- Two capitals have forms of their own: the I with a dot, and the sigma that ends a word.
      split at hm
      · exact hspecial m (by simp only [List.mem_cons, List.not_mem_nil, or_false] at hm ⊢; omega)
      split at hm
      · have heq := List.mem_singleton.mp hm
        split at heq <;> exact hspecial m (by simp [heq])
      · rw [List.mem_singleton.mp hm]
        exact plain_lower (h n List.mem_cons_self)
    · exact ih (fun k hk => h k (List.mem_cons_of_mem _ hk)) hm

theorem unbroken_ofPoint {n : Nat} (h : Plain n) : (ofPoint n).Unbroken := by
  have hunit : ∀ k : Nat, k < 0x10000 → k ≠ 0x0A → (0x0A : CodeUnit) ≠ k.toUInt16 := by
    intro k hlt hne heq
    have hk := congrArg UInt16.toNat heq
    rw [Nat.toUInt16, UInt16.toNat_ofNat'] at hk
    have hten : (0x0A : CodeUnit).toNat = 0x0A := rfl
    omega
  obtain ⟨hlt, hne⟩ := h
  -- Both halves of a pair are far above the line feed.
  unfold ofPoint
  split
  · intro hmem
    exact hunit n (by omega) hne (List.mem_singleton.mp hmem)
  · intro hmem
    rcases List.mem_cons.mp hmem with heq | hmem
    · exact hunit _ (by omega) (by omega) heq
    · exact hunit _ (by omega) (by omega) (List.mem_singleton.mp hmem)

theorem Unbroken.toLower (ht : t.Unbroken) : t.toLower.Unbroken := by
  intro hmem
  obtain ⟨n, hn, hmem⟩ := List.mem_flatMap.mp hmem
  exact unbroken_ofPoint (plain_of_mem_lowerPoints (fun k => ht.plain_of_mem_points) hn) hmem

/-- Decimal digits are no line feeds. -/
theorem unbroken_ofNat (n : Nat) : (ofNat n).Unbroken := by
  intro hmem
  obtain ⟨c, hc, hmem⟩ := List.mem_flatMap.mp hmem
  have hdigit := Nat.isDigit_of_mem_toDigits (by decide) (by decide) hc
  have hrange : 0x30 ≤ c.toNat ∧ c.toNat ≤ 0x39 := by
    simp only [Char.isDigit, Bool.and_eq_true, decide_eq_true_eq] at hdigit
    exact hdigit
  have hpoint : ofChar c = ofPoint c.toNat := rfl
  rw [hpoint] at hmem
  exact unbroken_ofPoint ⟨by omega, by omega⟩ hmem

theorem trimEnd_subset (t : Text) : t.trimEnd ⊆ t := fun _ hu =>
  List.mem_reverse.mp ((List.dropWhile_suffix _).subset (List.mem_reverse.mp hu))

theorem trim_subset (t : Text) : t.trim ⊆ t :=
  List.Subset.trans (trimEnd_subset _) (List.dropWhile_suffix _).subset

end Text

/-! ## Languages -/

namespace Parse.CodeBody

open Text (Unbroken)

/-- What stands in brackets or braces at the front of a body is on one line. -/
theorem unbroken_of_header? {opening closing : CodeUnit} {t inner after : Text}
    (h : header? opening closing t = some (inner, after)) : inner.Unbroken := by
  simp only [header?] at h
  split at h
  · split at h
    · cases h
      intro hmem
      have hu := List.mem_takeWhile_imp hmem
      simp at hu
    · cases h
  · cases h

theorem subset_of_languageSetting? {t value : Text} (h : languageSetting? t = some value) :
    value ⊆ t := by
  simp only [languageSetting?] at h
  split at h
  · split at h
    · cases h
    · cases h
      intro u hu
      have hvalue := (List.dropWhile_suffix _).subset ((List.takeWhile_prefix _).subset hu)
      have hrest := (List.dropWhile_suffix _).subset (List.mem_of_mem_tail hvalue)
      exact (List.dropWhile_suffix _).subset (List.mem_of_mem_drop hrest)
  · cases h

/-- The language that the body of a code environment names is on one line. -/
theorem unbroken_language {environment body language : Text}
    (h : (ofBody environment body).language = some language) : language.Unbroken := by
  obtain ⟨hlower, -⟩ := Option.filter_eq_some_iff.mp h
  obtain ⟨named, hnamed, rfl⟩ := Option.map_eq_some_iff.mp hlower
  apply Unbroken.toLower
  split at hnamed
  · -- One of the options of a listing.
    unfold ofListing at hnamed
    split at hnamed
    · next options rest hheader =>
      obtain ⟨piece, hpiece, hvalue⟩ := List.exists_of_findSome?_eq_some hnamed
      exact (unbroken_of_header? hheader).mono
        (List.Subset.trans (subset_of_languageSetting? hvalue) (Text.subset_of_mem_splitOn hpiece))
    · cases hnamed
  split at hnamed
  · simp only [ofHighlighted] at hnamed
    split at hnamed
    · next inner rest hheader =>
      cases hnamed
      exact (unbroken_of_header? hheader).mono (Text.trim_subset inner)
    · cases hnamed
  · cases hnamed

end Parse.CodeBody

end LatexMarkdown
