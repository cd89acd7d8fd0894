import LatexMarkdown.Number.Reading
import LatexMarkdown.Proofs.Scanning
import LatexMarkdown.Proofs.Unbroken.Pieces
/-!
  A text with carriage returns.

  `Text.withReturns` puts a carriage return before every line feed, and `Text.Returned` relates a text
  that had none to what it becomes.  Reading never sees the difference where it goes by classes of
  units that hold both line breaks or neither: space is trimmed and collapsed alike, and what stands
  on one line is the same.  The body of a code environment loses its first and last line break
  whichever way they are spelled (`Parse.CodeBody.returned_ofBody`).
-/
namespace LatexMarkdown

namespace Text

/-- With a carriage return before every line feed. -/
def withReturns (t : Text) : Text := t.replaceEach (· == 0x0A) fun _ => [0x0D, 0x0A]

/-! ## Units -/

@[simp] theorem withReturns_nil : withReturns [] = [] := rfl

@[simp] theorem withReturns_lineFeed (t : Text) :
    withReturns (0x0A :: t) = 0x0D :: 0x0A :: withReturns t := rfl

theorem withReturns_cons {u : CodeUnit} (hu : u ≠ 0x0A) (t : Text) :
    withReturns (u :: t) = u :: withReturns t := by
  simp [withReturns, replaceEach, hu]

theorem withReturns_eq_cons (u : CodeUnit) (t : Text) :
    ∃ v rest, withReturns (u :: t) = v :: rest := by
  by_cases hu : u = 0x0A
  · subst hu
    exact ⟨_, _, rfl⟩
  · exact ⟨_, _, withReturns_cons hu t⟩

theorem withReturns_eq_nil_iff {t : Text} : t.withReturns = [] ↔ t = [] := by
  cases t with
  | nil => simp
  | cons u t =>
    obtain ⟨v, rest, heq⟩ := withReturns_eq_cons u t
    simp [heq]

theorem withReturns_append (s t : Text) : withReturns (s ++ t) = withReturns s ++ withReturns t := by
  simp [withReturns, replaceEach]

/-- Without line feeds nothing changes. -/
theorem withReturns_of_not_mem {t : Text} (h : 0x0A ∉ t) : withReturns t = t := by
  induction t with
  | nil => rfl
  | cons u t ih =>
    rw [List.mem_cons, not_or] at h
    rw [withReturns_cons (Ne.symm h.1), ih h.2]

theorem withReturns_of_forall {t : Text} (h : ∀ u ∈ t, CodeUnit.isLineBreak u = false) :
    withReturns t = t :=
  withReturns_of_not_mem fun hmem => absurd (h _ hmem) (by decide)

variable {p : CodeUnit → Bool}

/-- A class that leaves out both line breaks has the same units at the front. -/
theorem takeWhile_withReturns (hf : p 0x0A = false) (hr : p 0x0D = false) (t : Text) :
    t.withReturns.takeWhile p = t.takeWhile p := by
  induction t with
  | nil => rfl
  | cons u t ih =>
    by_cases hu : u = 0x0A
    · subst hu
      simp [hf, hr]
    · rw [withReturns_cons hu, List.takeWhile_cons, List.takeWhile_cons, ih]

theorem dropWhile_withReturns (hf : p 0x0A = false) (hr : p 0x0D = false) (t : Text) :
    t.withReturns.dropWhile p = withReturns (t.dropWhile p) := by
  induction t with
  | nil => rfl
  | cons u t ih =>
    by_cases hu : u = 0x0A
    · subst hu
      simp [hf, hr]
    · rw [withReturns_cons hu, List.dropWhile_cons, List.dropWhile_cons, ih]
      split
      · rfl
      · rw [withReturns_cons hu]

theorem head?_withReturns {u : CodeUnit} (hu : u.isLineBreak = false) (t : Text) :
    t.withReturns.head? = some u ↔ t.head? = some u := by
  cases t with
  | nil => rfl
  | cons v t =>
    by_cases hv : v = 0x0A
    · subst hv
      have hr : (0x0D : CodeUnit) ≠ u := by rintro rfl; exact absurd hu (by decide)
      have hf : (0x0A : CodeUnit) ≠ u := by rintro rfl; exact absurd hu (by decide)
      simp [hr, hf]
    · rw [withReturns_cons hv, List.head?_cons, List.head?_cons]

/-- Behind units none of which breaks a line the rest is the same text with its carriage returns. -/
theorem withReturns_split {t : Text} {n : Nat} (h : ∀ u ∈ t.take n, CodeUnit.isLineBreak u = false) :
    t.withReturns.take n = t.take n ∧ t.withReturns.drop n = withReturns (t.drop n) := by
  by_cases hn : n ≤ t.length
  · have hlen : (t.take n).length = n := List.length_take_of_le hn
    have hsplit : t.withReturns = t.take n ++ withReturns (t.drop n) := by
      conv_lhs => rw [← List.take_append_drop n t, withReturns_append, withReturns_of_forall h]
    constructor
    · rw [hsplit, List.take_left' hlen]
    · rw [hsplit, List.drop_left' hlen]
  · have hle : t.length ≤ n := Nat.le_of_not_le hn
    rw [List.take_of_length_le hle] at h
    rw [withReturns_of_forall h, List.drop_of_length_le hle]
    exact ⟨rfl, rfl⟩

/-- Where both line breaks are space, what follows the space at the front is the same. -/
theorem dropWhile_space_withReturns (hf : p 0x0A = true) (hr : p 0x0D = true) (t : Text) :
    t.withReturns.dropWhile p = withReturns (t.dropWhile p) := by
  induction t with
  | nil => rfl
  | cons u t ih =>
    by_cases hu : u = 0x0A
    · subst hu
      rw [withReturns_lineFeed, List.dropWhile_cons_of_pos hr, List.dropWhile_cons_of_pos hf, ih,
        List.dropWhile_cons_of_pos hf]
    · rw [withReturns_cons hu, List.dropWhile_cons, List.dropWhile_cons, ih]
      split
      · rfl
      · rw [withReturns_cons hu]

theorem collapseFrom_withReturns (hf : p 0x0A = true) (hr : p 0x0D = true) (inRun : Bool) (t : Text) :
    collapseFrom p inRun t.withReturns = collapseFrom p inRun t := by
  induction t generalizing inRun with
  | nil => rfl
  | cons u t ih =>
    by_cases hu : u = 0x0A
    · subst hu
      simp only [withReturns_lineFeed, collapseFrom, hf, hr, if_true, ih]
    · rw [withReturns_cons hu, collapseFrom, collapseFrom, ih, ih]

theorem trimStart_withReturns (t : Text) : t.withReturns.trimStart = withReturns t.trimStart :=
  dropWhile_space_withReturns (by decide) (by decide) t

theorem trimEnd_append_space {t space : Text} (h : ∀ u ∈ space, CodeUnit.isUnicodeSpace u = true) :
    trimEnd (t ++ space) = t.trimEnd := by
  have hreverse : ∀ u ∈ space.reverse, CodeUnit.isUnicodeSpace u = true := fun u hu =>
    h u (List.mem_reverse.mp hu)
  rw [trimEnd, trimEnd, List.reverse_append, List.dropWhile_append_of_pos hreverse]

theorem trimEnd_append_of_not_space {u : CodeUnit} (h : u.isUnicodeSpace = false) (t : Text) :
    trimEnd (t ++ [u]) = t ++ [u] := by
  rw [trimEnd, List.reverse_append, List.reverse_singleton, List.singleton_append,
    List.dropWhile_cons_of_neg (by simp [h]), List.reverse_cons, List.reverse_reverse]

theorem trimEnd_withReturns (t : Text) : t.withReturns.trimEnd = withReturns t.trimEnd := by
  induction t using List.reverseRecOn with
  | nil => rfl
  | append_singleton t u ih =>
    rw [withReturns_append]
    by_cases hf : u = 0x0A
    · subst hf
      rw [trimEnd_append_space (by decide), ih, trimEnd_append_space (by decide)]
    · have hone : withReturns [u] = [u] := withReturns_cons hf []
      rw [hone]
      cases hu : u.isUnicodeSpace with
      | true =>
        have hspace : ∀ v ∈ [u], CodeUnit.isUnicodeSpace v = true := by simpa using hu
        rw [trimEnd_append_space hspace, ih, trimEnd_append_space hspace]
      | false =>
        rw [trimEnd_append_of_not_space hu, trimEnd_append_of_not_space hu, withReturns_append, hone]

theorem trim_withReturns (t : Text) : t.withReturns.trim = withReturns t.trim := by
  rw [trim, trimStart_withReturns, trimEnd_withReturns, trim]

/-! ## Two spellings -/

/-- A text without carriage returns, and what it is with one before every line feed. -/
structure Returned (t t' : Text) : Prop where
  clean : 0x0D ∉ t
  eq : t' = t.withReturns

namespace Returned

variable {s s' t t' : Text}

theorem of_forall (h : ∀ u ∈ t, CodeUnit.isLineBreak u = false) : Returned t t :=
  ⟨fun hmem => absurd (h _ hmem) (by decide), (withReturns_of_forall h).symm⟩

theorem nil : Returned [] [] := .of_forall (by simp)

theorem append (hs : Returned s s') (ht : Returned t t') : Returned (s ++ t) (s' ++ t') :=
  ⟨fun h => (List.mem_append.mp h).elim hs.clean ht.clean, by rw [hs.eq, ht.eq, withReturns_append]⟩

theorem trim (h : Returned t t') : Returned t.trim t'.trim :=
  ⟨fun hmem => h.clean (trim_subset t hmem), by rw [h.eq, trim_withReturns]⟩

/-- Without a line feed the text is the same. -/
theorem eq_of_unbroken (h : Returned t t') (ht : t.Unbroken) : t' = t := by
  rw [h.eq, withReturns_of_not_mem ht]

theorem eq_nil_iff (h : Returned t t') : t' = [] ↔ t = [] := by
  rw [h.eq, withReturns_eq_nil_iff]

/-- Collapsed space is the same. -/
theorem collapse (h : Returned t t') (hf : p 0x0A = true) (hr : p 0x0D = true) :
    t'.collapse p = t.collapse p := by
  rw [h.eq]
  exact collapseFrom_withReturns hf hr false t

/-- The text begins with space, or does not. -/
theorem head?_any (h : Returned t t') (hf : p 0x0A = true) (hr : p 0x0D = true) :
    t'.head?.any p = t.head?.any p := by
  rw [h.eq]
  cases t with
  | nil => rfl
  | cons u t =>
    by_cases hu : u = 0x0A
    · subst hu
      simp [hf, hr]
    · rw [withReturns_cons hu]
      rfl

/-- It ends with the same unit. -/
theorem getLast? (h : Returned t t') : t'.getLast? = t.getLast? := by
  rw [h.eq]
  induction t using List.reverseRecOn with
  | nil => rfl
  | append_singleton s u _ =>
    rw [withReturns_append]
    by_cases hu : u = 0x0A
    · subst hu
      simp
    · rw [withReturns_cons hu, withReturns_nil, List.getLast?_concat, List.getLast?_concat]

end Returned

/-- Collapsed space breaks no line. -/
theorem isLineBreak_of_mem_collapse {u : CodeUnit} {t : Text} (hf : p 0x0A = true)
    (hr : p 0x0D = true) (h : u ∈ t.collapse p) : u.isLineBreak = false := by
  cases hu : u.isLineBreak with
  | false => rfl
  | true =>
    have hp : p u = true := by
      simp only [CodeUnit.isLineBreak, Bool.or_eq_true, beq_iff_eq] at hu
      rcases hu with rfl | rfl
      · exact hf
      · exact hr
    rw [eq_of_mem_collapseFrom h hp] at hu
    exact absurd hu (by decide)

end Text

/-! ## Counts -/

theorem Number.readSign_withReturns (t : Text) :
    readSign t.withReturns = ((readSign t).1, (readSign t).2.withReturns) := by
  cases t with
  | nil => rfl
  | cons u t =>
    by_cases hf : u = 0x0A
    · subst hf
      rfl
    · rw [Text.withReturns_cons hf]
      by_cases hplus : u = 0x2B
      · subst hplus
        rfl
      by_cases hminus : u = 0x2D
      · subst hminus
        rfl
      have hother : ∀ t, readSign (u :: t) = (false, u :: t) := by
        intro t
        unfold readSign
        split
        · next heq => exact absurd (List.cons.inj heq).1 hplus
        · next heq => exact absurd (List.cons.inj heq).1 hminus
        · rfl
      rw [hother, hother, Text.withReturns_cons hf]

theorem Number.leadingInt?_withReturns (t : Text) : leadingInt? t.withReturns = leadingInt? t := by
  simp only [leadingInt?, Text.trimStart_withReturns, readSign_withReturns,
    Text.takeWhile_withReturns (p := CodeUnit.isDigit) rfl rfl]

/-! ## Code -/

namespace Parse.CodeBody

variable {t : Text}

/-- A header is on one line. -/
theorem header?_withReturns {opening closing : CodeUnit} (ho : opening.isLineBreak = false)
    (hc : closing.isLineBreak = false) (hclean : 0x0D ∉ t) :
    header? opening closing t.withReturns
      = (header? opening closing t).map fun (inner, after) => (inner, after.withReturns) := by
  by_cases hhead : t.head? = some opening
  · obtain ⟨rest, rfl⟩ := List.head?_eq_some_iff.mp hhead
    have hne : opening ≠ 0x0A := by rintro rfl; exact absurd ho (by decide)
    rw [Text.withReturns_cons hne]
    simp only [header?, List.head?_cons, List.tail_cons, if_true, Text.drop_length_takeWhile]
    generalize hq : (fun u : CodeUnit => u != closing && u != 0x0A) = q
    have hsplit : rest.takeWhile q ++ rest.dropWhile q = rest := List.takeWhile_append_dropWhile
    have hinner : ∀ u ∈ rest.takeWhile q, q u = true := fun u => List.mem_takeWhile_imp
    have hfront : Text.withReturns (rest.takeWhile q) = rest.takeWhile q := by
      refine Text.withReturns_of_not_mem fun hmem => ?_
      have hfeed := hinner _ hmem
      rw [← hq] at hfeed
      simp at hfeed
    have hrest : Text.withReturns rest = rest.takeWhile q ++ Text.withReturns (rest.dropWhile q) := by
      rw [← hfront, ← Text.withReturns_append, hsplit]
    rw [hrest, List.takeWhile_append_of_pos hinner, List.dropWhile_append_of_pos hinner]
    cases hb : rest.dropWhile q with
    | nil => simp
    | cons u after =>
      have hstop : q u = false := by
        have hhead := List.head?_dropWhile_not q rest
        rw [hb] at hhead
        simpa using hhead
      by_cases hf : u = 0x0A
      · -- The line ends before the closing unit, in either spelling.
        subst hf
        have hclosing : closing ≠ 0x0A := by rintro rfl; exact absurd hc (by decide)
        have hreturn : q 0x0D = true := by
          have hclosing : (0x0D : CodeUnit) ≠ closing := by rintro rfl; exact absurd hc (by decide)
          rw [← hq]
          simp [hclosing]
        rw [Text.withReturns_lineFeed, List.dropWhile_cons_of_pos hreturn,
          List.dropWhile_cons_of_neg (by simp [hstop])]
        simp [hclosing.symm]
      · rw [Text.withReturns_cons hf, List.takeWhile_cons_of_neg (by simp [hstop]),
          List.dropWhile_cons_of_neg (by simp [hstop])]
        by_cases hu : u = closing <;> simp [hu]
  · have hhead' : ¬ t.withReturns.head? = some opening := by
      rwa [Text.head?_withReturns ho]
    simp only [header?, if_neg hhead, if_neg hhead', Option.map_none]

theorem returned_dropFirstBreak (h : 0x0D ∉ t) :
    Text.Returned (dropFirstBreak t) (dropFirstBreak t.withReturns) := by
  have hdrop := Text.dropWhile_withReturns (p := CodeUnit.isTabSpace) rfl rfl t
  have hsubset : t.dropWhile CodeUnit.isTabSpace ⊆ t := List.dropWhile_subset _
  unfold dropFirstBreak
  rw [hdrop]
  generalize t.dropWhile CodeUnit.isTabSpace = d at hsubset
  cases d with
  | nil => exact ⟨h, rfl⟩
  | cons u d =>
    have hr : u ≠ 0x0D := fun hu => h (hu ▸ hsubset List.mem_cons_self)
    by_cases hf : u = 0x0A
    · subst hf
      exact ⟨fun hmem => h (hsubset (List.mem_cons_of_mem _ hmem)), rfl⟩
    · rw [Text.withReturns_cons hf]
      split
      · next heq => exact absurd (List.cons.inj heq).1 hr
      · next heq => exact absurd (List.cons.inj heq).1 hf
      · split
        · next heq => exact absurd (List.cons.inj heq).1 hr
        · next heq => exact absurd (List.cons.inj heq).1 hf
        · exact ⟨h, rfl⟩

/-- Seen from its end, the text begins with the same space, and then with its last line break. -/
theorem reverse_dropWhile_withReturns (t : Text) :
    t.withReturns.reverse.dropWhile CodeUnit.isTabSpace
      = (Text.withReturns (t.reverse.dropWhile CodeUnit.isTabSpace).reverse).reverse := by
  induction t using List.reverseRecOn with
  | nil => rfl
  | append_singleton t u ih =>
    rw [Text.withReturns_append, List.reverse_append, List.reverse_append, List.reverse_singleton,
      List.singleton_append]
    by_cases hf : u = 0x0A
    · subst hf
      rw [List.dropWhile_cons_of_neg (by decide), List.reverse_cons, List.reverse_reverse,
        Text.withReturns_append, List.reverse_append]
      rfl
    · rw [Text.withReturns_cons hf, Text.withReturns_nil, List.reverse_singleton,
        List.singleton_append, List.dropWhile_cons, List.dropWhile_cons, ih]
      split
      · rfl
      · rw [List.reverse_cons, List.reverse_reverse, Text.withReturns_append, List.reverse_append,
          Text.withReturns_cons hf]
        rfl

theorem returned_dropLastBreak (h : 0x0D ∉ t) :
    Text.Returned (dropLastBreak t) (dropLastBreak t.withReturns) := by
  have hsubset : t.reverse.dropWhile CodeUnit.isTabSpace ⊆ t := fun _ hu =>
    List.mem_reverse.mp (List.dropWhile_subset _ hu)
  unfold dropLastBreak
  rw [reverse_dropWhile_withReturns]
  generalize t.reverse.dropWhile CodeUnit.isTabSpace = d at hsubset
  cases d with
  | nil => exact ⟨h, rfl⟩
  | cons u d =>
    rw [List.reverse_cons, Text.withReturns_append, List.reverse_append]
    by_cases hf : u = 0x0A
    · subst hf
      have hrest : ∀ rest, d ≠ 0x0D :: rest := fun rest heq => h (hsubset (by simp [heq]))
      have hclean : 0x0D ∉ d.reverse := fun hmem =>
        h (hsubset (List.mem_cons_of_mem _ (List.mem_reverse.mp hmem)))
      have hlong : (Text.withReturns [0x0A]).reverse ++ (Text.withReturns d.reverse).reverse
          = 0x0A :: 0x0D :: (Text.withReturns d.reverse).reverse := rfl
      rw [hlong]
      split
      · next heq => exact absurd (List.cons.inj heq).2 (hrest _)
      · next heq =>
        obtain ⟨-, rfl⟩ := List.cons.inj heq
        exact ⟨hclean, by simp⟩
      · next hnot => exact absurd rfl (hnot d)
    · rw [Text.withReturns_cons hf, Text.withReturns_nil, List.reverse_singleton,
        List.singleton_append]
      split
      · next heq => exact absurd (List.cons.inj heq).1 hf
      · next heq => exact absurd (List.cons.inj heq).1 hf
      · split
        · next heq => exact absurd (List.cons.inj heq).1 hf
        · next heq => exact absurd (List.cons.inj heq).1 hf
        · exact ⟨h, rfl⟩

/-- What stands behind a header stands in the text. -/
theorem subset_of_header? {opening closing : CodeUnit} {inner after : Text}
    (h : header? opening closing t = some (inner, after)) : after ⊆ t := by
  simp only [header?] at h
  split at h
  · split at h
    · cases h
      exact fun _ hu => List.mem_of_mem_tail (List.mem_of_mem_drop (List.mem_of_mem_tail hu))
    · cases h
  · cases h

/-- The code of two spellings of a body. -/
structure Returned (c c' : CodeBody) : Prop where
  text : Text.Returned c.text c'.text
  language : c'.language = c.language

variable {t' : Text}

theorem returned_header? (opening closing : CodeUnit) (ho : opening.isLineBreak = false)
    (hc : closing.isLineBreak = false) (h : Text.Returned t t') :
    Option.Rel (fun r r' : Text × Text => r'.1 = r.1 ∧ Text.Returned r.2 r'.2)
      (header? opening closing (t.dropWhile CodeUnit.isTabSpace))
      (header? opening closing (t'.dropWhile CodeUnit.isTabSpace)) := by
  have hclean : 0x0D ∉ t.dropWhile CodeUnit.isTabSpace := fun hmem =>
    h.clean (List.dropWhile_subset _ hmem)
  rw [h.eq, Text.dropWhile_withReturns rfl rfl, header?_withReturns ho hc hclean]
  cases hr : header? opening closing (t.dropWhile CodeUnit.isTabSpace) with
  | none => exact .none
  | some r => exact .some ⟨rfl, fun hmem => hclean (subset_of_header? hr hmem), rfl⟩

theorem returned_ofListing (h : Text.Returned t t') : Returned (ofListing t) (ofListing t') := by
  have hheader := returned_header? 0x5B 0x5D rfl rfl h
  unfold ofListing
  generalize header? 0x5B 0x5D (t.dropWhile CodeUnit.isTabSpace) = r,
    header? 0x5B 0x5D (t'.dropWhile CodeUnit.isTabSpace) = r' at hheader
  cases hheader with
  | none => exact ⟨h, rfl⟩
  | some hr => exact ⟨hr.2, congrArg language? hr.1⟩

/-- What the rest of a body says, where a language in braces may come first. -/
def ofLanguage (body rest : Text) : CodeBody :=
  match header? 0x7B 0x7D (rest.dropWhile CodeUnit.isTabSpace) with
  | some (language, rest) => ⟨rest, some language.trim⟩
  | none => ⟨body, none⟩

theorem returned_ofLanguage (h : Text.Returned t t') {s s' : Text} (hs : Text.Returned s s') :
    Returned (ofLanguage t s) (ofLanguage t' s') := by
  have hheader := returned_header? 0x7B 0x7D rfl rfl hs
  unfold ofLanguage
  generalize header? 0x7B 0x7D (s.dropWhile CodeUnit.isTabSpace) = r,
    header? 0x7B 0x7D (s'.dropWhile CodeUnit.isTabSpace) = r' at hheader
  cases hheader with
  | none => exact ⟨h, rfl⟩
  | some hr => exact ⟨hr.2, congrArg (fun language => some (Text.trim language)) hr.1⟩

theorem returned_ofHighlighted (h : Text.Returned t t') :
    Returned (ofHighlighted t) (ofHighlighted t') := by
  have hoptions := returned_header? 0x5B 0x5D rfl rfl h
  have hstart : Text.Returned (t.dropWhile CodeUnit.isTabSpace) (t'.dropWhile CodeUnit.isTabSpace) :=
    ⟨fun hmem => h.clean (List.dropWhile_subset _ hmem),
      by rw [h.eq, Text.dropWhile_withReturns rfl rfl]⟩
  simp only [ofHighlighted]
  generalize header? 0x5B 0x5D (t.dropWhile CodeUnit.isTabSpace) = r,
    header? 0x5B 0x5D (t'.dropWhile CodeUnit.isTabSpace) = r' at hoptions
  cases hoptions with
  | none => exact returned_ofLanguage h hstart
  | some hr => exact returned_ofLanguage h hr.2

/-- The code of a body is the same but for its line breaks. -/
theorem returned_ofBody (environment : Text) (h : Text.Returned t t') :
    Returned (ofBody environment t) (ofBody environment t') := by
  -- Only what the code begins with goes by the environment.
  have hedges : ∀ {c c' : CodeBody}, Returned c c' → Returned
      { text := dropLastBreak (dropFirstBreak c.text)
        language := (c.language.map Text.toLower).filter (· ≠ []) }
      { text := dropLastBreak (dropFirstBreak c'.text)
        language := (c'.language.map Text.toLower).filter (· ≠ []) } := by
    intro c c' hc
    have hfirst := returned_dropFirstBreak hc.text.clean
    rw [← hc.text.eq] at hfirst
    have hlast := returned_dropLastBreak hfirst.clean
    rw [← hfirst.eq] at hlast
    exact ⟨hlast, by rw [hc.language]⟩
  unfold ofBody
  apply hedges
  split
  · exact returned_ofListing h
  split
  · exact returned_ofHighlighted h
  · exact ⟨h, rfl⟩

end Parse.CodeBody

end LatexMarkdown
