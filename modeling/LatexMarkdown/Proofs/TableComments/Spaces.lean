import LatexMarkdown.Proofs.NormalForm
import LatexMarkdown.Proofs.TidyMath
/-!
  Content with spaces put in.

  `Text.Looser` relates a text to one that lacks some of its spaces and line breaks, `Inline.Looser` and
  `Inline.Spaced` inline content to content that lacks some in its texts, and texts that hold nothing
  else.  Trimming and collapsing keep the first relation, whatever space they go by, as long as spaces
  and line breaks belong to it (`Text.Looser.trim`, `Text.Looser.collapse`).  Normalizing keeps the
  other two (`Inline.Spaced.normalize`): a space that was put in may stay, but no node changes its place,
  and content in normal form is empty on both sides or on neither (`Inline.Spaced.eq_nil_iff`).
-/
namespace LatexMarkdown

/-! ## Texts -/

/-- A space or part of a line break. -/
def CodeUnit.isGap (u : CodeUnit) : Bool := u == 0x20 || u.isLineBreak

theorem CodeUnit.isInlineSpace_of_isGap {u : CodeUnit} (h : u.isGap = true) :
    u.isInlineSpace = true := by
  rw [isGap, Bool.or_eq_true, beq_iff_eq] at h
  rcases h with rfl | h
  · decide
  · exact isInlineSpace_of_isLineBreak h

theorem CodeUnit.isUnicodeSpace_of_isGap {u : CodeUnit} (h : u.isGap = true) :
    u.isUnicodeSpace = true :=
  isUnicodeSpace_of_isInlineSpace (isInlineSpace_of_isGap h)

/-- The first text is the second one with spaces and line breaks put in. -/
inductive Text.Looser : Text → Text → Prop
  | nil : Looser [] []
  | same (u : CodeUnit) {t t' : Text} (h : Looser t t') : Looser (u :: t) (u :: t')
  | gap {u : CodeUnit} {t t' : Text} (hu : u.isGap = true) (h : Looser t t') : Looser (u :: t) t'

namespace Text

theorem collapse_eq_nil_iff {p : CodeUnit → Bool} {t : Text} : t.collapse p = [] ↔ t = [] := by
  cases t with
  | nil => simp [collapse, collapseFrom]
  | cons u t =>
    rw [collapse, collapseFrom]
    split <;> simp

namespace Looser

variable {s s' t t' : Text} {u : CodeUnit}

theorem refl : ∀ t : Text, t.Looser t
  | [] => .nil
  | u :: t => .same u (refl t)

theorem append (h : s.Looser s') (ht : t.Looser t') : Text.Looser (s ++ t) (s' ++ t') := by
  induction h with
  | nil => exact ht
  | same u _ ih => exact .same u ih
  | gap hu _ ih => exact .gap hu ih

theorem reverse (h : t.Looser t') : Text.Looser t.reverse t'.reverse := by
  induction h with
  | nil => exact .nil
  | same u _ ih =>
    rw [List.reverse_cons, List.reverse_cons]
    exact ih.append (.same u .nil)
  | @gap u t t' hu _ ih =>
    rw [List.reverse_cons, ← List.append_nil t'.reverse]
    exact ih.append (.gap hu .nil)

/-- Nothing but spaces and line breaks is put into nothing. -/
theorem nil_iff : t.Looser [] ↔ ∀ u ∈ t, u.isGap = true := by
  constructor
  · intro h
    generalize hnil : ([] : Text) = t' at h
    induction h with
    | nil => simp
    | same => cases hnil
    | gap hu _ ih => exact List.forall_mem_cons.mpr ⟨hu, ih hnil⟩
  · intro h
    induction t with
    | nil => exact .nil
    | cons u t ih =>
      rw [List.forall_mem_cons] at h
      exact .gap h.1 (ih h.2)

/-- Of nothing, nothing can be left out. -/
theorem eq_nil (h : t.Looser t') (hnil : t = []) : t' = [] := by
  cases h with
  | nil => rfl
  | same => cases hnil
  | gap => cases hnil

theorem of_cons (h : t.Looser (u :: t')) (hu : u.isGap = true) : t.Looser t' := by
  generalize hcons : u :: t' = s at h
  induction h with
  | nil => cases hcons
  | same v h _ =>
    cases hcons
    exact .gap hu h
  | gap hv _ ih => exact .gap hv (ih hcons)

/-- What the second text begins with, the first one begins with, or with a space or line break. -/
theorem head?_any {p : CodeUnit → Bool} (hp : ∀ u, u.isGap = true → p u = true) (h : t.Looser t')
    (h' : t'.head?.any p = true) : t.head?.any p = true := by
  cases h with
  | nil => cases h'
  | same => exact h'
  | gap hu => exact hp _ hu

theorem startsInSpace (h : t.Looser t') (h' : t'.startsInSpace = true) : t.startsInSpace = true :=
  h.head?_any (fun _ => CodeUnit.isInlineSpace_of_isGap) h'

theorem endsInSpace (h : t.Looser t') (h' : t'.endsInSpace = true) : t.endsInSpace = true := by
  rw [Text.endsInSpace, ← List.head?_reverse] at h' ⊢
  exact h.reverse.startsInSpace h'

/-- A text that is put into nothing has space at both its ends. -/
theorem endsInSpace_of_nil (h : t.Looser []) (hne : t ≠ []) :
    t.startsInSpace = true ∧ t.endsInSpace = true := by
  rw [nil_iff] at h
  have hspace := fun u hu => CodeUnit.isInlineSpace_of_isGap (h u hu)
  refine ⟨?_, endsInSpace_of_forall hne hspace⟩
  obtain ⟨u, rest, rfl⟩ := List.exists_cons_of_ne_nil hne
  exact hspace u List.mem_cons_self

/-! ### Trimming and collapsing -/

section Class

variable {p : CodeUnit → Bool} (hp : ∀ u, u.isGap = true → p u = true)

include hp

theorem dropWhile (h : t.Looser t') : Text.Looser (t.dropWhile p) (t'.dropWhile p) := by
  induction h with
  | nil => exact .nil
  | same u h ih =>
    rw [List.dropWhile_cons, List.dropWhile_cons]
    split
    · exact ih
    · exact .same u h
  | gap hu _ ih =>
    rw [List.dropWhile_cons, if_pos (hp _ hu)]
    exact ih

/-- In the second half the text that is left out is the space of a run that begins before. -/
theorem collapseFrom_and (h : t.Looser t') :
    (∀ before, Text.Looser (collapseFrom p before t) (collapseFrom p before t')) ∧
      Text.Looser (0x20 :: collapseFrom p true t) (collapseFrom p false t') := by
  have hspace : CodeUnit.isGap 0x20 = true := by decide
  induction h with
  | nil => exact ⟨fun _ => .nil, .gap hspace .nil⟩
  | same u _ ih =>
    obtain ⟨ih, -⟩ := ih
    cases hu : p u with
    | true =>
      simp only [collapseFrom, hu, if_true, Bool.false_eq_true, if_false]
      refine ⟨fun before => ?_, .same _ (ih true)⟩
      split
      · exact ih true
      · exact .same _ (ih true)
    | false =>
      simp only [collapseFrom, hu, Bool.false_eq_true, if_false]
      exact ⟨fun _ => .same u (ih false), .gap hspace (.same u (ih false))⟩
  | gap hu _ ih =>
    obtain ⟨ih, ihspace⟩ := ih
    simp only [collapseFrom, hp _ hu, if_true]
    refine ⟨fun before => ?_, ihspace⟩
    cases before with
    | true => exact ih true
    | false => exact ihspace

theorem collapseFrom (h : t.Looser t') (before : Bool) :
    Text.Looser (Text.collapseFrom p before t) (Text.collapseFrom p before t') :=
  (h.collapseFrom_and hp).1 before

end Class

theorem trim (h : t.Looser t') : Text.Looser t.trim t'.trim := by
  have hp := fun u => CodeUnit.isUnicodeSpace_of_isGap (u := u)
  exact ((h.dropWhile hp).reverse.dropWhile hp).reverse

/-- Trimmed, a text is empty wherever it is without the spaces that were put in. -/
theorem eq_nil_iff_of_trim (h : t.trim.Looser t') : t' = [] ↔ t.trim = [] := by
  refine ⟨fun hnil => ?_, h.eq_nil⟩
  rw [hnil, nil_iff] at h
  rw [← trim_trim, trim_eq_nil_iff]
  exact fun u hu => CodeUnit.isUnicodeSpace_of_isGap (h u hu)

/-- Between the space that was put in and the space that was there, one is dropped at the front. -/
theorem dropFrontSpace (h : t.Looser t') (hspace : ∀ u ∈ t, u.isGap = true → u = 0x20) :
    Text.Looser (Inline.dropFrontSpace t) (Inline.dropFrontSpace t') := by
  cases h with
  | nil => exact .nil
  | @same u t t' h =>
    rw [Inline.dropFrontSpace, Inline.dropFrontSpace, List.head?_cons, List.head?_cons]
    split
    · exact h
    · exact .same u h
  | @gap u t _ hu h =>
    rw [hspace u List.mem_cons_self hu, show Inline.dropFrontSpace (0x20 :: t) = t from rfl,
      Inline.dropFrontSpace]
    split
    · next hhead =>
      obtain ⟨rest, rfl⟩ := List.head?_eq_some_iff.mp hhead
      exact h.of_cons (by decide)
    · exact h

theorem dropBackSpace (h : t.Looser t') (hspace : ∀ u ∈ t, u.isGap = true → u = 0x20) :
    Text.Looser (Inline.dropBackSpace t) (Inline.dropBackSpace t') := by
  have heq : ∀ s : Text, Inline.dropBackSpace s = (Inline.dropFrontSpace s.reverse).reverse := by
    intro s
    rw [Inline.dropBackSpace, Inline.dropFrontSpace, List.head?_reverse]
    split
    · rw [List.tail_reverse, List.reverse_reverse]
    · rw [List.reverse_reverse]
  rw [heq, heq]
  exact (h.reverse.dropFrontSpace fun u hu => hspace u (List.mem_reverse.mp hu)).reverse

/-- Space that was put in may be left when a text is tidied, or go. -/
theorem tidyText (h : t.Looser t') (atEdge back : Bool) :
    (Inline.tidyText atEdge back t).Looser (Inline.tidyText atEdge back t') := by
  have hfront := h.collapseFrom (fun _ => CodeUnit.isInlineSpace_of_isGap) atEdge
  rw [Inline.tidyText_eq, Inline.tidyText_eq]
  cases back with
  | false => exact hfront
  | true =>
    exact hfront.dropBackSpace fun u hu hgap =>
      eq_of_mem_collapseFrom hu (CodeUnit.isInlineSpace_of_isGap hgap)

end Looser

end Text

/-! ## Inline content -/

/-- The second list is the first one, node by node, but for texts of nothing but spaces and line breaks
that it may lack. -/
inductive Inline.Spaced (r : Inline → Inline → Prop) : List Inline → List Inline → Prop
  | nil : Spaced r [] []
  | gap (i : NodeInfo) {t : Text} {ns ns' : List Inline} (hne : t ≠ []) (ht : t.Looser [])
      (h : Spaced r ns ns') : Spaced r (.text i t :: ns) ns'
  | cons {n n' : Inline} {ns ns' : List Inline} (hn : r n n') (h : Spaced r ns ns') :
      Spaced r (n :: ns) (n' :: ns')

/-- The first node is the second one, with spaces and line breaks put into its texts and at other
places. -/
inductive Inline.Looser : Inline → Inline → Prop
  | text (a b a' b' : Nat) {t t' : Text} (h : t.Looser t') :
      Looser (.text (.span a b) t) (.text (.span a' b') t')
  | emphasis (a b a' b' : Nat) {cs cs' : List Inline} (h : Spaced Looser cs cs') :
      Looser (.emphasis (.span a b) cs) (.emphasis (.span a' b') cs')
  | strong (a b a' b' : Nat) {cs cs' : List Inline} (h : Spaced Looser cs cs') :
      Looser (.strong (.span a b) cs) (.strong (.span a' b') cs')
  | code (a b a' b' : Nat) {t t' : Text} (h : t.Looser t') :
      Looser (.code (.span a b) t) (.code (.span a' b') t')
  | link (a b a' b' : Nat) {url url' : Text} {cs cs' : List Inline} (h : url.Looser url')
      (hcs : Spaced Looser cs cs') : Looser (.link (.span a b) url cs) (.link (.span a' b') url' cs')
  | math (a b a' b' : Nat) {t t' : Text} (h : t.Looser t') :
      Looser (.math (.span a b) t) (.math (.span a' b') t')
  | hardBreak (a b a' b' : Nat) : Looser (.hardBreak (.span a b)) (.hardBreak (.span a' b'))

namespace Inline

variable {n n' : Inline} {ns ns' ms ms' : List Inline}

namespace Looser

theorem isText (h : n.Looser n') : n'.isText = n.isText := by cases h <;> rfl

theorem isHardBreak (h : n.Looser n') : n'.isHardBreak = n.isHardBreak := by cases h <;> rfl

/-- Two nodes are texts, or neither is. -/
theorem cases_text (h : n.Looser n') :
    (∃ a b a' b' t t', n = .text (.span a b) t ∧ n' = .text (.span a' b') t' ∧ t.Looser t') ∨
      (n.isText = false ∧ n'.isText = false) := by
  cases h with
  | text a b a' b' h => exact .inl ⟨a, b, a', b', _, _, rfl, rfl, h⟩
  | _ => exact .inr ⟨rfl, rfl⟩

mutual

theorem plainText : ∀ {n n' : Inline}, n.Looser n' → n.plainText.Looser n'.plainText
  | _, _, .text _ _ _ _ h | _, _, .code _ _ _ _ h | _, _, .math _ _ _ _ h => h
  | _, _, .hardBreak _ _ _ _ => .refl _
  | _, _, .emphasis _ _ _ _ h | _, _, .strong _ _ _ _ h | _, _, .link _ _ _ _ _ h => plainTextOf h

theorem plainTextOf : ∀ {ns ns' : List Inline}, Spaced Looser ns ns' →
    (Inline.plainTextOf ns).Looser (Inline.plainTextOf ns')
  | _, _, .nil => .nil
  | _, _, .gap _ _ ht h => ht.append (plainTextOf h)
  | _, _, .cons hn h => (plainText hn).append (plainTextOf h)

end

end Looser

namespace Spaced

theorem append {r : Inline → Inline → Prop} (h : Spaced r ns ns') (hm : Spaced r ms ms') :
    Spaced r (ns ++ ms) (ns' ++ ms') := by
  induction h with
  | nil => exact hm
  | gap i hne ht _ ih => exact .gap i hne ht ih
  | cons hn _ ih => exact .cons hn ih

theorem reverse {r : Inline → Inline → Prop} (h : Spaced r ns ns') :
    Spaced r ns.reverse ns'.reverse := by
  induction h with
  | nil => exact .nil
  | @gap i t ns ns' hne ht _ ih =>
    rw [List.reverse_cons, ← List.append_nil ns'.reverse]
    exact ih.append (.gap i hne ht .nil)
  | cons hn _ ih =>
    rw [List.reverse_cons, List.reverse_cons]
    exact ih.append (.cons hn .nil)

/-- Where something else than a text comes first, it comes first in both lists. -/
theorem head (h : Spaced Looser ns ns') (hhead : ∀ n ∈ ns.head?, n.isText = false) :
    (∀ n ∈ ns'.head?, n.isText = false) ∧ edgeFirst ns' = edgeFirst ns := by
  cases h with
  | nil => exact ⟨hhead, rfl⟩
  | gap => exact absurd (hhead _ rfl) (by simp [Inline.isText])
  | cons hn =>
    refine ⟨fun m hm => ?_, hn.isHardBreak⟩
    rw [← Option.some.inj hm, hn.isText]
    exact hhead _ rfl

/-- A text that comes first in the second list comes first in the other one, texts being apart there. -/
theorem exists_text {i' : NodeInfo} {t' : Text} (h : Spaced Looser ns ns')
    (h' : ns'.head? = some (.text i' t'))
    (hsep : ∀ n rest, ns = n :: rest → n.isText = true → ∀ m ∈ rest.head?, m.isText = false) :
    ∃ i t, ns.head? = some (.text i t) ∧ t.Looser t' := by
  cases h with
  | nil => cases h'
  | gap i _ ht h =>
    have hother := (h.head (hsep _ _ rfl rfl)).1 _ h'
    cases hother
  | cons hn =>
    cases Option.some.inj h'
    cases hn with
    | text _ _ _ _ ht => exact ⟨_, _, rfl, ht⟩

/-! ### Merging -/

/-- Space is merged with the text behind it. -/
theorem mergeInto_gap (i : NodeInfo) {t : Text} (hne : t ≠ []) (ht : t.Looser [])
    (h : Spaced Looser ns ns') : Spaced Looser (mergeInto (.text i t) ns) ns' := by
  cases h with
  | nil => exact .gap i hne ht .nil
  | gap j _ hs h => exact .gap _ (List.append_ne_nil_of_left_ne_nil hne _) (ht.append hs) h
  | cons hn h =>
    obtain ⟨_, _, _, _, s, s', rfl, rfl, hs⟩ | ⟨hother, -⟩ := hn.cases_text
    · exact .cons (.text _ _ _ _ (ht.append hs)) h
    · rw [mergeInto_cons_of_isText hother]
      exact .gap i hne ht (.cons hn h)

theorem mergeInto_text (a b a' b' : Nat) {t t' : Text} (ht : t.Looser t')
    (h : Spaced Looser ns ns') (hsep : Separate ns) :
    Spaced Looser (mergeInto (.text (.span a b) t) ns) (mergeInto (.text (.span a' b') t') ns') := by
  cases h with
  | nil => exact .cons (.text a b a' b' ht) .nil
  | @gap j s ns ns' _ hs h =>
    -- Behind the space that was put in there is no text, so none comes first in the second list.
    have hother := (h.head (hsep.1 rfl)).1
    have hmerge : mergeInto (.text (.span a' b') t') ns' = .text (.span a' b') t' :: ns' := by
      cases ns' with
      | nil => rfl
      | cons m rest => exact mergeInto_cons_of_isText (hother m rfl) _ _
    rw [hmerge]
    have htext : Text.Looser (t ++ s) t' := by simpa using ht.append hs
    exact .cons (.text _ _ a' b' htext) h
  | cons hn h =>
    obtain ⟨_, _, _, _, s, s', rfl, rfl, hs⟩ | ⟨hother, hother'⟩ := hn.cases_text
    · exact .cons (.text _ _ _ _ (ht.append hs)) h
    · rw [mergeInto_cons_of_isText hother, mergeInto_cons_of_isText hother']
      exact .cons (.text a b a' b' ht) (.cons hn h)

theorem mergeTexts (h : Spaced Looser ns ns') :
    Spaced Looser (mergeTexts ns) (Inline.mergeTexts ns') := by
  induction h with
  | nil => exact .nil
  | gap i hne ht _ ih => exact ih.mergeInto_gap i hne ht
  | @cons n n' ns ns' hn _ ih =>
    show Spaced Looser (mergeInto n (Inline.mergeTexts ns)) (mergeInto n' (Inline.mergeTexts ns'))
    obtain ⟨a, b, a', b', t, t', rfl, rfl, ht⟩ | ⟨hother, hother'⟩ := hn.cases_text
    · exact ih.mergeInto_text a b a' b' ht (separate_mergeTexts ns)
    · rw [mergeInto_of_isText hother, mergeInto_of_isText hother']
      exact .cons hn ih

/-! ### Tidying -/

theorem tidied (h : Spaced Looser ns ns') (hsep : Separate ns) {atEdge atEdge' : Bool}
    (hedge : atEdge' = atEdge ∨ ∀ n ∈ ns.head?, n.isText = false) :
    Spaced Looser (tidied atEdge ns) (Inline.tidied atEdge' ns') := by
  induction h generalizing atEdge atEdge' with
  | nil => exact .nil
  | @gap i t ns ns' _ ht _ ih =>
    rw [tidied_text]
    have hs := ht.tidyText atEdge (edgeFirst ns)
    rw [tidyText_nil] at hs
    -- Behind the space that was put in no text comes first, so the flag makes no difference there.
    have hrest : Spaced Looser (Inline.tidied false ns) (Inline.tidied atEdge' ns') :=
      ih hsep.2 (.inr (hsep.1 rfl))
    split
    · exact hrest
    · next hne => exact .gap _ hne hs hrest
  | @cons n n' ns ns' hn h ih =>
    obtain ⟨_, _, _, _, t, t', rfl, rfl, ht⟩ | ⟨hother, hother'⟩ := hn.cases_text
    · obtain rfl : atEdge' = atEdge := hedge.resolve_right fun hhead => absurd (hhead _ rfl) (by
        simp [Inline.isText])
      rw [tidied_text, tidied_text, (h.head (hsep.1 rfl)).2]
      have hs := ht.tidyText atEdge' (edgeFirst ns)
      refine append ?_ (ih hsep.2 (.inl rfl))
      split
      · next hnil =>
        rw [if_pos (hs.eq_nil hnil)]
        exact .nil
      · next hne =>
        split
        · next hnil => exact .gap _ hne (hnil ▸ hs) .nil
        · exact .cons (.text _ _ _ _ hs) .nil
    · rw [tidied_cons_of_isText hother, tidied_cons_of_isText hother', hn.isHardBreak]
      exact .cons hn (ih hsep.2 (.inl rfl))

/-- Forced breaks in front are dropped from both lists, unless space that was put in keeps one. -/
theorem dropBreaks (h : Spaced Looser ns ns')
    (hfirst : ∀ i t, .text i t ∈ (ns.dropWhile Inline.isHardBreak).head? → ¬ t.Looser []) :
    Spaced Looser (ns.dropWhile Inline.isHardBreak) (ns'.dropWhile Inline.isHardBreak) := by
  induction h with
  | nil => exact .nil
  | gap i _ ht => exact absurd ht (hfirst i _ rfl)
  | cons hn h ih =>
    rw [List.dropWhile_cons] at hfirst
    rw [List.dropWhile_cons, List.dropWhile_cons, hn.isHardBreak]
    split
    · next hbreak =>
      rw [if_pos hbreak] at hfirst
      exact ih hfirst
    · exact .cons hn h

/-- Content that lacks spaces of other content lacks some of them, or none, in normal form. -/
theorem normalize (h : Spaced Looser ns ns') :
    Spaced Looser (normalize ns) (Inline.normalize ns') := by
  have htidy := tidy_tidied (separate_mergeTexts ns) true
  have hsep := separate_mergeTexts ns
  have hfront := (h.mergeTexts.tidied hsep (.inl rfl)).dropBreaks fun i t hmem ht => by
    have hdropped := htidy.1.dropWhile
    obtain ⟨rest, hrest⟩ := List.head?_eq_some_iff.mp hmem
    rw [hrest] at hdropped
    obtain ⟨⟨-, hne, -, hstart, -⟩, -⟩ := hdropped
    rw [(ht.endsInSpace_of_nil hne).1] at hstart
    cases hstart rfl
  refine (hfront.reverse.dropBreaks fun i t hmem ht => ?_).reverse
  -- What stands at the back stands there when the breaks behind it are dropped, too.
  have hdropped := (tidy_rdropWhile ⟨htidy.1.dropWhile, htidy.2.dropWhile⟩).1
  obtain ⟨rest, hrest⟩ := List.head?_eq_some_iff.mp hmem
  rw [List.rdropWhile, hrest, List.reverse_cons] at hdropped
  obtain ⟨hne, hend⟩ := hdropped.last_text
  rw [(ht.endsInSpace_of_nil hne).2] at hend
  cases hend

/-- In normal form content is empty wherever it is without the spaces that were put in. -/
theorem eq_nil_iff (h : Spaced Looser ns ns') (hnormal : Normal ns) : ns' = [] ↔ ns = [] := by
  constructor
  · rintro rfl
    cases h with
    | nil => rfl
    | gap i hne ht =>
      obtain ⟨⟨-, -, -, hstart, -⟩, -⟩ := hnormal.tidy
      rw [(ht.endsInSpace_of_nil hne).1] at hstart
      cases hstart rfl
  · rintro rfl
    cases h
    rfl

end Spaced

/-- Content that lacks spaces of other content, and is empty only if that is. -/
structure LooserContent (ns ns' : List Inline) : Prop where
  spaced : Spaced Looser ns ns'
  eq_nil_iff : ns' = [] ↔ ns = []

end Inline

end LatexMarkdown
