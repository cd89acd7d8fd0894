import LatexMarkdown.Proofs.Breaks.Marks
import LatexMarkdown.Proofs.NormalForm
/-!
  The marks of inline content.

  `written` takes inline content for the marks of what it is written as.  For content of words,
  forced breaks and formatted groups (`Sturdy`), putting it into normal form drops the gaps at its
  two ends and otherwise keeps every gap, if not every mark (`flagged_normalize`).  A formatted
  group therefore adds what `closed` says to the content around it (`closeArgument_alike`).
-/
namespace LatexMarkdown

namespace Breaks

open Inline (normalize mergeTexts mergeInto tidyTexts trimHardBreaks dropFrontSpace dropBackSpace
  edgeFirst Separate Tidy Normal)
open Markdown (inlineText spanText)
open Parse (State)

/-! ## Texts of words -/

/-- Letters, digits and the space character. -/
def IsWordUnit (u : CodeUnit) : Prop := u.isAlphanumeric = true ∨ u = 0x20

instance : DecidablePred IsWordUnit := fun _ => instDecidableOr

/-- Nothing but words. -/
def IsWords (t : Text) : Prop := ∀ u ∈ t, IsWordUnit u

instance (t : Text) : Decidable (IsWords t) := List.decidableBAll IsWordUnit t

theorem isInlineSpace_of_isAlphanumeric {u : CodeUnit} (h : u.isAlphanumeric = true) :
    u.isInlineSpace = false := by
  have hspaces : ∀ v ∈ ([0x20, 0x09, 0x0C, 0x0B, 0x0D, 0x0A] : Text), v.isAlphanumeric = false := by
    decide
  rw [Bool.eq_false_iff]
  intro hspace
  have hmem : u ∈ ([0x20, 0x09, 0x0C, 0x0B, 0x0D, 0x0A] : Text) := by
    simpa [CodeUnit.isInlineSpace, or_assoc] using hspace
  rw [hspaces u hmem] at h
  cases h

theorem ofUnit?_letter {u : CodeUnit} (h : u.isAlphanumeric = true) :
    Mark.ofUnit? u = some (.letter u) := if_pos h

theorem marks_letter {u : CodeUnit} (h : u.isAlphanumeric = true) (t : Text) :
    marks (u :: t) = .letter u :: marks t := by
  rw [marks, List.filterMap_cons, ofUnit?_letter h]
  rfl

theorem marks_space (t : Text) : marks (0x20 :: t) = .space :: marks t := rfl

/-- Collapsing keeps the gaps; behind a space that is out a gap is there already. -/
theorem flagged_collapseFrom {t : Text} (h : IsWords t) {before gap : Bool}
    (hgap : before = true → gap = true) :
    flagged gap (marks (t.collapseFrom CodeUnit.isInlineSpace before)) = flagged gap (marks t) ∧
      endsInGap gap (marks (t.collapseFrom CodeUnit.isInlineSpace before))
        = endsInGap gap (marks t) := by
  induction t generalizing before gap with
  | nil => exact ⟨rfl, rfl⟩
  | cons u rest ih =>
    have hrest : IsWords rest := fun v hv => h v (List.mem_cons_of_mem u hv)
    rcases h u List.mem_cons_self with hu | rfl
    · rw [Text.collapseFrom, isInlineSpace_of_isAlphanumeric hu, if_neg (by simp), marks_letter hu,
        marks_letter hu]
      obtain ⟨hflagged, hends⟩ := ih hrest (show false = true → false = true from id)
      exact ⟨congrArg ((gap, u) :: ·) hflagged, hends⟩
    · obtain ⟨hflagged, hends⟩ := ih hrest (show true = true → true = true from id)
      rw [Text.collapseFrom, if_pos (by decide), marks_space]
      cases before with
      | true =>
        rw [hgap rfl]
        exact ⟨hflagged, hends⟩
      | false => exact ⟨hflagged, hends⟩

/-- Behind a gap, a space at the front of a text changes nothing. -/
theorem flagged_dropFrontSpace (t : Text) :
    flagged true (marks (dropFrontSpace t)) = flagged true (marks t) ∧
      endsInGap true (marks (dropFrontSpace t)) = endsInGap true (marks t) := by
  unfold dropFrontSpace
  split
  · next hspace =>
    obtain ⟨rest, rfl⟩ := List.head?_eq_some_iff.mp hspace
    exact ⟨rfl, rfl⟩
  · exact ⟨rfl, rfl⟩

/-- A space at the back of a text counts only for what comes behind. -/
theorem flagged_dropBackSpace (gap : Bool) (t : Text) :
    flagged gap (marks (dropBackSpace t)) = flagged gap (marks t) := by
  unfold dropBackSpace
  split
  · next hspace =>
    obtain ⟨front, rfl⟩ := List.getLast?_eq_some_iff.mp hspace
    rw [List.dropLast_concat, marks_append, flagged_append]
    exact (List.append_nil _).symm
  · rfl

/-- The first mark of words is a space where they begin with space. -/
theorem head?_marks_iff {t : Text} (h : IsWords t) :
    (marks t).head? = some .space ↔ t.startsInSpace = true := by
  cases t with
  | nil => simp [Text.startsInSpace]
  | cons u rest =>
    rcases h u List.mem_cons_self with hu | rfl
    · simp [marks_letter hu, Text.startsInSpace, isInlineSpace_of_isAlphanumeric hu]
    · simp [marks_space, Text.startsInSpace]
      decide

theorem getLast?_marks_iff {t : Text} (h : IsWords t) :
    (marks t).getLast? = some .space ↔ t.endsInSpace = true := by
  rcases List.eq_nil_or_concat t with rfl | ⟨front, u, rfl⟩
  · simp [Text.endsInSpace]
  · rw [List.concat_eq_append, marks_append]
    rcases h u (by simp) with hu | rfl
    · simp [marks_letter hu, Text.endsInSpace, isInlineSpace_of_isAlphanumeric hu]
    · simp [marks_space, Text.endsInSpace]
      decide

/-- Words that neither begin nor end with space begin and end with letters. -/
theorem exists_head?_marks {t : Text} (h : IsWords t) (hne : t ≠ [])
    (hstart : t.startsInSpace = false) : ∃ u, (marks t).head? = some (.letter u) := by
  obtain ⟨u, rest, rfl⟩ := List.exists_cons_of_ne_nil hne
  rcases h u List.mem_cons_self with hu | rfl
  · exact ⟨u, by rw [marks_letter hu]; rfl⟩
  · simp [Text.startsInSpace] at hstart
    exact absurd hstart (by decide)

theorem exists_getLast?_marks {t : Text} (h : IsWords t) (hne : t ≠ [])
    (hend : t.endsInSpace = false) : ∃ u, (marks t).getLast? = some (.letter u) := by
  obtain ⟨front, u, rfl⟩ := (List.eq_nil_or_concat t).resolve_left hne
  rw [List.concat_eq_append] at hend ⊢
  rcases h u (by simp) with hu | rfl
  · exact ⟨u, by rw [marks_append, marks_letter hu]; simp⟩
  · simp [Text.endsInSpace] at hend
    exact absurd hend (by decide)

/-! ## Content that is written -/

/-- The marks of what inline content is written as. -/
def written (ns : List Inline) : List Mark := marks (inlineText [0x0A] false ns)

/-- Words, forced breaks, and formatted groups of these that begin and end with a letter. -/
inductive Sturdy : Inline → Prop
  | text (i : NodeInfo) {t : Text} (h : IsWords t) : Sturdy (.text i t)
  | hardBreak (i : NodeInfo) : Sturdy (.hardBreak i)
  | strong (i : NodeInfo) {cs : List Inline} (h : ∀ n ∈ cs, Sturdy n) (hl : Lettered (written cs)) :
      Sturdy (.strong i cs)
  | emphasis (i : NodeInfo) {cs : List Inline} (h : ∀ n ∈ cs, Sturdy n)
      (hl : Lettered (written cs)) : Sturdy (.emphasis i cs)
  | code (i : NodeInfo) {t : Text} (h : IsWords t) (hl : Lettered (marks t)) : Sturdy (.code i t)

variable {n : Inline} {ns : List Inline} {f outer : Fragments}

theorem Sturdy.isMath (h : Sturdy n) : Markdown.isMath n = false := by cases h <;> rfl

theorem written_cons (h : Sturdy n) (ns : List Inline) :
    written (n :: ns) = written [n] ++ written ns := by
  have hmath := h.isMath
  simp [written, inlineText, hmath, marks_append]

theorem written_append (h : ∀ n ∈ ns, Sturdy n) (ms : List Inline) :
    written (ns ++ ms) = written ns ++ written ms := by
  induction ns with
  | nil => rfl
  | cons n rest ih =>
    rw [List.cons_append, written_cons (h n List.mem_cons_self),
      ih fun m hm => h m (List.mem_cons_of_mem n hm), ← List.append_assoc,
      ← written_cons (h n List.mem_cons_self)]

theorem written_text (i : NodeInfo) (t : Text) : written [.text i t] = marks t := by
  simp [written, inlineText, spanText]

theorem written_hardBreak (i : NodeInfo) : written [.hardBreak i] = [.hardBreak] := rfl

theorem marks_between {a : Text} (ha : marks a = []) (t : Text) : marks (a ++ t ++ a) = marks t := by
  rw [marks_append, marks_append, ha, List.append_nil, List.nil_append]

theorem written_strong (i : NodeInfo) (cs : List Inline) : written [.strong i cs] = written cs := by
  have hstars : marks "**" = [] := by decide
  rw [written, inlineText, spanText, inlineText, List.append_nil, marks_between hstars, written]

theorem written_emphasis (i : NodeInfo) (cs : List Inline) :
    written [.emphasis i cs] = written cs := by
  have hstar : marks "*" = [] := by decide
  rw [written, inlineText, spanText, inlineText, List.append_nil, marks_between hstar, written]

theorem longestBackticks_of_isWords {t : Text} (h : IsWords t) :
    Markdown.longestBackticks 0 t = 0 := by
  induction t with
  | nil => rfl
  | cons u rest ih =>
    have hu : u ≠ 0x60 := by
      rintro rfl
      exact absurd (h 0x60 List.mem_cons_self) (by decide)
    rw [Markdown.longestBackticks, if_neg hu, ih fun v hv => h v (List.mem_cons_of_mem u hv)]
    rfl

theorem written_code (i : NodeInfo) {t : Text} (h : IsWords t) : written [.code i t] = marks t := by
  have htick : marks (Markdown.backticks 1) = [] := by decide
  rw [written, inlineText, spanText, inlineText, List.append_nil, Markdown.codeSpan,
    longestBackticks_of_isWords h]
  exact marks_between htick t

/-- A formatted group begins and ends with a letter. -/
theorem Sturdy.lettered (h : Sturdy n) (ht : n.isText = false) (hb : n.isHardBreak = false) :
    Lettered (written [n]) := by
  cases h with
  | text => cases ht
  | hardBreak => cases hb
  | strong i _ hl => rwa [written_strong]
  | emphasis i _ hl => rwa [written_emphasis]
  | code i h hl => rwa [written_code i h]

/-! ## Normal form -/

theorem sturdy_mergeTexts (h : ∀ n ∈ ns, Sturdy n) :
    (∀ n ∈ mergeTexts ns, Sturdy n) ∧ written (mergeTexts ns) = written ns := by
  induction ns with
  | nil => exact ⟨by simp [mergeTexts], rfl⟩
  | cons n rest ih =>
    have hn := h n List.mem_cons_self
    obtain ⟨hsturdy, hwritten⟩ := ih fun m hm => h m (List.mem_cons_of_mem n hm)
    have hmerge : mergeTexts (n :: rest) = mergeInto n (mergeTexts rest) := rfl
    rw [hmerge, written_cons hn, ← hwritten]
    unfold mergeInto
    split
    · next i t j u rest' heq =>
      rw [heq] at hsturdy
      obtain ⟨hu, hrest⟩ := List.forall_mem_cons.mp hsturdy
      cases hn with | text _ ht =>
      cases hu with | text _ hu =>
      have hjoined : Sturdy (Inline.joinTexts i j t u) :=
        .text _ fun v hv => (List.mem_append.mp hv).elim (ht v) (hu v)
      refine ⟨List.forall_mem_cons.mpr ⟨hjoined, hrest⟩, ?_⟩
      rw [heq, written_cons hjoined, written_cons (.text j hu), Inline.joinTexts, written_text,
        written_text, written_text, marks_append, List.append_assoc]
    · exact ⟨List.forall_mem_cons.mpr ⟨hn, hsturdy⟩, written_cons hn _⟩

theorem sturdy_tidyTexts (h : ∀ n ∈ ns, Sturdy n) (atEdge : Bool) :
    ∀ n ∈ tidyTexts atEdge ns, Sturdy n := by
  induction ns generalizing atEdge with
  | nil => simp [tidyTexts]
  | cons n rest ih =>
    obtain ⟨hn, hrest⟩ := List.forall_mem_cons.mp h
    cases hn with
    | text i ht =>
      refine List.forall_mem_cons.mpr ⟨.text _ fun u hu => ?_, ih hrest false⟩
      rcases Text.mem_or_eq_of_mem_collapseFrom (Inline.subset_trimmed _ _ _ hu) with hu | rfl
      · exact ht u hu
      · exact .inr rfl
    | hardBreak i => exact List.forall_mem_cons.mpr ⟨.hardBreak i, ih hrest true⟩
    | strong i hs hl => exact List.forall_mem_cons.mpr ⟨.strong i hs hl, ih hrest false⟩
    | emphasis i hs hl => exact List.forall_mem_cons.mpr ⟨.emphasis i hs hl, ih hrest false⟩
    | code i ht hl => exact List.forall_mem_cons.mpr ⟨.code i ht hl, ih hrest false⟩

/-- Before an edge or a forced break it does not matter whether a gap comes before. -/
theorem flagged_of_edgeFirst (h : edgeFirst ns = true) (gap gap' : Bool) :
    flagged gap (written (tidyTexts false ns)) = flagged gap' (written (tidyTexts false ns)) := by
  cases ns with
  | nil => rfl
  | cons n rest =>
    cases n with
    | hardBreak i =>
      rw [tidyTexts, written_cons (.hardBreak i), written_hardBreak]
      · rfl
      · simp
    | _ => cases h

/-- The space that a text loses stands beside gaps: at its front behind one, at its back before what
follows. -/
theorem flagged_tidied_text {t : Text} (ht : IsWords t) {atEdge gap : Bool}
    (hgap : atEdge = true → gap = true) (back : Bool) :
    let front := if atEdge then dropFrontSpace t.collapsed else t.collapsed
    let tidied := if back then dropBackSpace front else front
    flagged gap (marks tidied) = flagged gap (marks t) ∧
      (back = false → endsInGap gap (marks tidied) = endsInGap gap (marks t)) := by
  intro front tidied
  obtain ⟨hcollapsed, hends⟩ := flagged_collapseFrom ht (show false = true → gap = true by simp)
  have hfront : flagged gap (marks front) = flagged gap (marks t) ∧
      endsInGap gap (marks front) = endsInGap gap (marks t) := by
    cases atEdge with
    | false => exact ⟨hcollapsed, hends⟩
    | true =>
      rw [hgap rfl] at hcollapsed hends ⊢
      obtain ⟨hdropped, hdropped'⟩ := flagged_dropFrontSpace t.collapsed
      exact ⟨hdropped.trans hcollapsed, hdropped'.trans hends⟩
  cases back with
  | false => exact ⟨hfront.1, fun _ => hfront.2⟩
  | true => exact ⟨(flagged_dropBackSpace gap front).trans hfront.1, by simp⟩

/-- Tidying drops space beside gaps alone; `atEdge` says that there is one before. -/
theorem flagged_tidyTexts (h : ∀ n ∈ ns, Sturdy n) {atEdge gap : Bool}
    (hgap : atEdge = true → gap = true) :
    flagged gap (written (tidyTexts atEdge ns)) = flagged gap (written ns) := by
  induction ns generalizing atEdge gap with
  | nil => rfl
  | cons n rest ih =>
    obtain ⟨hn, hrest⟩ := List.forall_mem_cons.mp h
    have hother : flagged gap (written (n :: tidyTexts false rest))
        = flagged gap (written (n :: rest)) := by
      rw [written_cons hn (tidyTexts false rest), written_cons hn rest, flagged_append,
        flagged_append, ih hrest (by simp)]
    cases hn with
    | @text i t ht =>
      have htidy := sturdy_tidyTexts h atEdge
      obtain ⟨hflagged, hends⟩ := flagged_tidied_text ht hgap (edgeFirst rest)
      rw [tidyTexts] at htidy ⊢
      rw [written_cons (htidy _ List.mem_cons_self), written_cons (.text i ht), written_text,
        written_text, flagged_append, flagged_append]
      refine congrArg₂ (· ++ ·) hflagged ?_
      cases hedge : edgeFirst rest with
      | false =>
        rw [hedge] at hends
        rw [← ih hrest (show false = true → _ by simp)]
        exact congrArg (flagged · _) (hends rfl)
      | true =>
        rw [← ih hrest (show false = true → _ by simp)]
        exact flagged_of_edgeFirst hedge _ _
    | hardBreak i =>
      rw [tidyTexts, written_cons (.hardBreak i), written_cons (.hardBreak i), written_hardBreak]
      · exact ih hrest (show true = true → true = true from id)
      · simp
    | strong | emphasis | code =>
      rw [tidyTexts]
      · exact hother
      · simp

/-- Texts without characters add nothing. -/
theorem written_filter (h : ∀ n ∈ ns, Sturdy n) :
    written (ns.filter (!·.isEmptyText)) = written ns := by
  induction ns with
  | nil => rfl
  | cons n rest ih =>
    obtain ⟨hn, hrest⟩ := List.forall_mem_cons.mp h
    rw [List.filter_cons, written_cons hn rest]
    cases hempty : n.isEmptyText with
    | false => rw [Bool.not_false, if_pos rfl, written_cons hn, ih hrest]
    | true =>
      have hnil : written [n] = [] := by
        cases hn with
        | text i ht => rw [written_text, List.isEmpty_iff.mp hempty, marks_nil]
        | _ => cases hempty
      rw [Bool.not_true, if_neg (by simp), ih hrest, hnil, List.nil_append]

theorem eq_hardBreak (h : n.isHardBreak = true) : ∃ i, n = .hardBreak i := by
  cases n with
  | hardBreak i => exact ⟨i, rfl⟩
  | _ => cases h

/-- Forced breaks at the front are gaps before everything, those at the back behind it. -/
theorem flagged_trimHardBreaks (h : ∀ n ∈ ns, Sturdy n) :
    flagged true (written (trimHardBreaks ns)) = flagged true (written ns) := by
  have hfront (ns : List Inline) :
      flagged true (written (ns.dropWhile Inline.isHardBreak)) = flagged true (written ns) := by
    induction ns with
    | nil => rfl
    | cons n rest ih =>
      by_cases hb : n.isHardBreak = true
      · obtain ⟨i, rfl⟩ := eq_hardBreak hb
        rw [List.dropWhile_cons_of_pos hb, ih, written_cons (.hardBreak i)]
        rfl
      · rw [List.dropWhile_cons_of_neg hb]
  have hback {ns : List Inline} (h : ∀ n ∈ ns, Sturdy n) :
      flagged true (written (ns.rdropWhile Inline.isHardBreak)) = flagged true (written ns) := by
    induction ns using List.reverseRecOn with
    | nil => rfl
    | append_singleton ns n ih =>
      by_cases hb : n.isHardBreak = true
      · obtain ⟨i, rfl⟩ := eq_hardBreak hb
        have hns : ∀ n ∈ ns, Sturdy n := fun m hm => h m (List.mem_append_left _ hm)
        rw [List.rdropWhile_concat_pos _ _ _ hb, ih hns, written_append hns, flagged_append,
          written_hardBreak]
        exact (List.append_nil _).symm
      · rw [List.rdropWhile_concat_neg _ _ _ hb]
  rw [Inline.trimHardBreaks_eq, hback fun n hn => h n ((List.dropWhile_sublist _).subset hn), hfront]

/-- Normal form keeps content sturdy, and keeps all gaps but those at its two ends. -/
theorem flagged_normalize (h : ∀ n ∈ ns, Sturdy n) :
    (∀ n ∈ normalize ns, Sturdy n) ∧
      flagged true (written (normalize ns)) = flagged true (written ns) := by
  obtain ⟨hmerged, hwritten⟩ := sturdy_mergeTexts h
  have htidy := sturdy_tidyTexts hmerged true
  have hfiltered : ∀ n ∈ (tidyTexts true (mergeTexts ns)).filter (!·.isEmptyText), Sturdy n :=
    fun n hn => htidy n (List.mem_of_mem_filter hn)
  refine ⟨fun n hn => hfiltered n ((Inline.trimHardBreaks_sublist _).subset hn), ?_⟩
  calc flagged true (written (normalize ns))
      = flagged true (written ((tidyTexts true (mergeTexts ns)).filter (!·.isEmptyText))) :=
        flagged_trimHardBreaks hfiltered
    _ = flagged true (written (tidyTexts true (mergeTexts ns))) := by rw [written_filter htidy]
    _ = flagged true (written (mergeTexts ns)) := flagged_tidyTexts hmerged id
    _ = flagged true (written ns) := by rw [hwritten]

/-- Content in normal form, if there is any, begins and ends with a letter. -/
theorem lettered_of_normal (h : ∀ n ∈ ns, Sturdy n) (hnormal : Normal ns) (hne : ns ≠ []) :
    Lettered (written ns) := by
  refine ⟨?_, ?_⟩
  · obtain ⟨n, rest, rfl⟩ := List.exists_cons_of_ne_nil hne
    have hn := h n List.mem_cons_self
    have hhead : ∃ u, (written [n]).head? = some (.letter u) := by
      by_cases ht : n.isText = true
      · cases hn with
        | text i hwords =>
          obtain ⟨-, hne, -, hstart, -⟩ := hnormal.tidy.1
          rw [written_text]
          exact exists_head?_marks hwords hne (hstart rfl)
        | _ => cases ht
      · exact (hn.lettered (Bool.eq_false_iff.mpr ht) (hnormal.front n rfl)).head
    obtain ⟨u, hu⟩ := hhead
    exact ⟨u, by rw [written_cons hn, List.head?_append, hu]; rfl⟩
  · obtain ⟨front, n, rfl⟩ := (List.eq_nil_or_concat ns).resolve_left hne
    rw [List.concat_eq_append] at h hnormal ⊢
    have hn := h n (by simp)
    have hlast : ∃ u, (written [n]).getLast? = some (.letter u) := by
      by_cases ht : n.isText = true
      · cases hn with
        | text i hwords =>
          obtain ⟨hne, hend⟩ := hnormal.tidy.last_text
          rw [written_text]
          exact exists_getLast?_marks hwords hne hend
        | _ => cases ht
      · exact (hn.lettered (Bool.eq_false_iff.mpr ht) (hnormal.back n (by simp))).last
    obtain ⟨u, hu⟩ := hlast
    exact ⟨u, by
      rw [written_append fun m hm => h m (List.mem_append_left _ hm), List.getLast?_append, hu]
      rfl⟩

/-- Nothing is left of content without letters; else the gaps at the ends go. -/
theorem normalize_alike (h : ∀ n ∈ ns, Sturdy n) :
    (normalize ns = [] ↔ letters (written ns) = []) ∧
      (normalize ns ≠ [] → Alike (written (normalize ns)) (trimmed (written ns)) ∧
        Lettered (written (normalize ns))) := by
  obtain ⟨hsturdy, hflagged⟩ := flagged_normalize h
  have hlettered := lettered_of_normal hsturdy (Inline.normal_normalize ns)
  have hletters : letters (written (normalize ns)) = letters (written ns) := by
    rw [← map_snd_flagged true, hflagged, map_snd_flagged]
  have hnil : normalize ns = [] ↔ letters (written ns) = [] := by
    rw [← hletters]
    refine ⟨fun hnil => by rw [hnil]; rfl, fun hnone => ?_⟩
    by_contra hne
    exact (hlettered hne).letters_ne_nil hnone
  refine ⟨hnil, fun hne => ⟨?_, hlettered hne⟩⟩
  exact (hlettered hne).alike (lettered_trimmed (mt hnil.mpr hne))
    (hflagged.trans (flagged_trimmed _).symm)

/-! ## Content in the making -/

/-- Sturdy content was gathered, and no text without characters. -/
def Holds (f : Fragments) : Prop := ∀ n ∈ f.toList, Sturdy n ∧ n.isEmptyText = false

/-- The marks of what was gathered. -/
def gathered (f : Fragments) : List Mark := written f.toList

theorem holds_empty : Holds {} := by simp [Holds, Fragments.toList, Fragments.flush]

theorem Holds.sturdy (h : Holds f) : ∀ n ∈ f.toList, Sturdy n := fun n hn => (h n hn).1

theorem Holds.push (h : Holds f) (hn : Sturdy n) (hne : n.isEmptyText = false) :
    Holds (f.push n) ∧ gathered (f.push n) = gathered f ++ written [n] := by
  refine ⟨Fragments.forall_push h ⟨hn, hne⟩, ?_⟩
  rw [gathered, Fragments.toList_push, written_append h.sturdy, gathered]

/-- A text is added to the one that is open, or is a new one. -/
theorem toList_pushText (f : Fragments) (start stop : Nat) (t : Text) :
    ∃ ns i s, (f.pushText start stop t).toList = ns ++ [.text i (s ++ t)] ∧
      ((f.toList = ns ∧ s = []) ∨ ∃ j, f.toList = ns ++ [.text j s]) := by
  rw [Fragments.toList_eq, Fragments.toList_eq, Fragments.pushText]
  cases f.pending? with
  | none => exact ⟨f.nodes.reverse, _, [], by simp [OpenText.toInline]; rfl, .inl (by simp)⟩
  | some o =>
    exact ⟨f.nodes.reverse, _, o.pieces.reverse.flatten, by simp [OpenText.toInline]; rfl,
      .inr ⟨_, by simp [OpenText.toInline]; rfl⟩⟩

theorem Holds.pushText (h : Holds f) {t : Text} (ht : IsWords t) (hne : t ≠ [])
    (start stop : Nat) : Holds (f.pushText start stop t) ∧
      gathered (f.pushText start stop t) = gathered f ++ marks t := by
  obtain ⟨ns, i, s, hpushed, hbefore⟩ := toList_pushText f start stop t
  have hs : IsWords s ∧ (∀ n ∈ ns, Sturdy n ∧ n.isEmptyText = false) ∧
      gathered f = written ns ++ marks s := by
    rcases hbefore with ⟨hlist, rfl⟩ | ⟨j, hlist⟩
    · exact ⟨by simp [IsWords], hlist ▸ h, by rw [gathered, hlist, marks_nil, List.append_nil]⟩
    · rw [Holds, hlist] at h
      have hns : ∀ n ∈ ns, Sturdy n ∧ n.isEmptyText = false := fun n hn =>
        h n (List.mem_append_left _ hn)
      have hlast := (h (.text j s) (by simp)).1
      cases hlast with
      | text _ hs =>
        refine ⟨hs, hns, ?_⟩
        rw [gathered, hlist, written_append fun n hn => (hns n hn).1, written_text]
  obtain ⟨hwords, hns, hgathered⟩ := hs
  have hjoined : IsWords (s ++ t) := fun u hu => (List.mem_append.mp hu).elim (hwords u) (ht u)
  refine ⟨?_, ?_⟩
  · rw [Holds, hpushed]
    intro n hn
    rcases List.mem_append.mp hn with hn | hn
    · exact hns n hn
    · rw [List.mem_singleton.mp hn]
      exact ⟨.text i hjoined, by simp [Inline.isEmptyText, hne]⟩
  · rw [hgathered, gathered, hpushed, written_append fun n hn => (hns n hn).1, written_text,
      marks_append, List.append_assoc]

theorem Holds.pushAll (h : Holds f) (hns : ∀ n ∈ ns, Sturdy n ∧ n.isEmptyText = false) :
    Holds (f.pushAll ns) ∧ gathered (f.pushAll ns) = gathered f ++ written ns := by
  induction ns generalizing f with
  | nil => exact ⟨h, (List.append_nil _).symm⟩
  | cons n rest ih =>
    obtain ⟨⟨hn, hne⟩, hrest⟩ := List.forall_mem_cons.mp hns
    have hadd {g : Fragments} (hg : Holds g ∧ gathered g = gathered f ++ written [n]) :
        Holds (g.pushAll rest) ∧ gathered (g.pushAll rest) = gathered f ++ written (n :: rest) := by
      obtain ⟨hholds, heq⟩ := ih hg.1 hrest
      refine ⟨hholds, ?_⟩
      rw [heq, hg.2, List.append_assoc, ← written_cons hn]
    cases hn with
    | text i ht =>
      refine hadd ?_
      rw [written_text]
      exact h.pushText ht (by simpa [Inline.isEmptyText] using hne) _ _
    | hardBreak i => exact hadd (h.push (.hardBreak i) hne)
    | strong i hs hl => exact hadd (h.push (.strong i hs hl) hne)
    | emphasis i hs hl => exact hadd (h.push (.emphasis i hs hl) hne)
    | code i ht hl => exact hadd (h.push (.code i ht hl) hne)

theorem marks_ne_nil {t : Text} (h : IsWords t) (hne : t ≠ []) : marks t ≠ [] := by
  obtain ⟨u, rest, rfl⟩ := List.exists_cons_of_ne_nil hne
  rcases h u List.mem_cons_self with hu | rfl
  · simp [marks_letter hu]
  · simp [marks_space]

/-- A node shows a mark; only a text has a space for its first or last one. -/
theorem Sturdy.ends (h : Sturdy n) (hne : n.isEmptyText = false) : written [n] ≠ [] ∧
    (n.isText = false →
      (written [n]).head? ≠ some .space ∧ (written [n]).getLast? ≠ some .space) := by
  by_cases hb : n.isHardBreak = true
  · obtain ⟨i, rfl⟩ := eq_hardBreak hb
    rw [written_hardBreak]
    simp
  by_cases ht : n.isText = true
  · cases h with
    | @text i t hwords =>
      refine ⟨?_, by simp [ht]⟩
      rw [written_text]
      exact marks_ne_nil hwords (by simpa [Inline.isEmptyText] using hne)
    | _ => cases ht
  · have hlettered := h.lettered (Bool.eq_false_iff.mpr ht) (Bool.eq_false_iff.mpr hb)
    obtain ⟨u, hu⟩ := hlettered.head
    obtain ⟨v, hv⟩ := hlettered.last
    refine ⟨fun hnil => ?_, fun _ => ⟨by simp [hu], by simp [hv]⟩⟩
    simp [hnil] at hu

/-- Content begins with space where its first mark is a space. -/
theorem Holds.leadingSpace_iff (h : Holds f) :
    f.leadingSpace = true ↔ (gathered f).head? = some .space := by
  rw [Fragments.leadingSpace, gathered]
  cases hl : f.toList with
  | nil => simp [written, inlineText]
  | cons n rest =>
    obtain ⟨hn, hne⟩ := h n (hl ▸ List.mem_cons_self)
    obtain ⟨hmarks, hends⟩ := hn.ends hne
    have hhead : (written (n :: rest)).head? = (written [n]).head? := by
      rw [written_cons hn, List.head?_append_of_ne_nil _ hmarks]
    rw [hhead]
    cases hn with
    | text i hwords =>
      rw [written_text, head?_marks_iff hwords]
      rfl
    | _ => simp [(hends rfl).1]

theorem Holds.trailingSpace_iff (h : Holds f) :
    f.trailingSpace = true ↔ (gathered f).getLast? = some .space := by
  have hlist : f.toList = f.flush.nodes.reverse := rfl
  rw [Fragments.trailingSpace, gathered]
  cases hl : f.flush.nodes with
  | nil =>
    rw [hlist, hl]
    simp [written, inlineText]
  | cons n rest =>
    rw [hl, List.reverse_cons] at hlist
    obtain ⟨hn, hne⟩ := h n (by simp [hlist])
    have hrest : ∀ m ∈ rest.reverse, Sturdy m := fun m hm => (h m (by simp [hlist, hm])).1
    obtain ⟨hmarks, hends⟩ := hn.ends hne
    have hlast : (written (rest.reverse ++ [n])).getLast? = (written [n]).getLast? := by
      rw [written_append hrest, List.getLast?_append_of_ne_nil _ hmarks]
    rw [hlist, hlast]
    cases hn with
    | text i hwords =>
      rw [written_text, getLast?_marks_iff hwords]
      rfl
    | _ => simp [(hends rfl).2]

/-! ## Closing a formatted group -/

/-- A space is added where there is to be one. -/
theorem Holds.pushSpace (h : Holds f) (b : Bool) (start stop : Nat) :
    Holds (if b then f.pushText start stop [0x20] else f) ∧
      gathered (if b then f.pushText start stop [0x20] else f)
        = gathered f ++ (if b = true then [.space] else []) := by
  have hspace : IsWords [0x20] := by simp [IsWords, IsWordUnit]
  cases b with
  | true => exact h.pushText hspace (by simp) start stop
  | false => exact ⟨h, (List.append_nil _).symm⟩

/-- As plain characters, with a space for a forced break, content has the same gaps. -/
theorem flagged_plainTextOf (h : ∀ n ∈ ns, IsWords n.plainText ∧ ∀ gap,
      flagged gap (marks n.plainText) = flagged gap (written [n]) ∧
      endsInGap gap (marks n.plainText) = endsInGap gap (written [n]))
    (hsturdy : ∀ n ∈ ns, Sturdy n) :
    IsWords (Inline.plainTextOf ns) ∧ ∀ gap,
      flagged gap (marks (Inline.plainTextOf ns)) = flagged gap (written ns) ∧
      endsInGap gap (marks (Inline.plainTextOf ns)) = endsInGap gap (written ns) := by
  induction ns with
  | nil => exact ⟨by simp [IsWords, Inline.plainTextOf], fun gap => ⟨rfl, rfl⟩⟩
  | cons n rest ih =>
    obtain ⟨⟨hwords, hn⟩, hrest⟩ := List.forall_mem_cons.mp h
    obtain ⟨hsn, hsrest⟩ := List.forall_mem_cons.mp hsturdy
    obtain ⟨hwords', hmore⟩ := ih hrest hsrest
    refine ⟨fun u hu => (List.mem_append.mp hu).elim (hwords u) (hwords' u), fun gap => ?_⟩
    rw [Inline.plainTextOf, marks_append, written_cons hsn, flagged_append, flagged_append,
      endsInGap_append, endsInGap_append, (hn gap).1, (hn gap).2, (hmore _).1, (hmore _).2]
    exact ⟨rfl, rfl⟩

theorem Sturdy.flagged_plainText (h : Sturdy n) : IsWords n.plainText ∧ ∀ gap,
    flagged gap (marks n.plainText) = flagged gap (written [n]) ∧
    endsInGap gap (marks n.plainText) = endsInGap gap (written [n]) := by
  induction h with
  | text i h => exact ⟨h, fun gap => by rw [written_text]; exact ⟨rfl, rfl⟩⟩
  | hardBreak i => exact ⟨by simp [Inline.plainText, IsWords, IsWordUnit], fun gap => ⟨rfl, rfl⟩⟩
  | strong i h hl ih =>
    rw [Inline.plainText, written_strong]
    exact flagged_plainTextOf ih h
  | emphasis i h hl ih =>
    rw [Inline.plainText, written_emphasis]
    exact flagged_plainTextOf ih h
  | code i h hl => exact ⟨h, fun gap => by rw [written_code i h]; exact ⟨rfl, rfl⟩⟩

/-- Content that begins and ends with a letter may be made code. -/
theorem code_of_lettered (h : ∀ n ∈ ns, Sturdy n) (hl : Lettered (written ns)) (i : NodeInfo) :
    Sturdy (.code i (Inline.plainTextOf ns)) ∧
      Alike (written [.code i (Inline.plainTextOf ns)]) (written ns) := by
  obtain ⟨hwords, hflagged⟩ := flagged_plainTextOf (fun n hn => (h n hn).flagged_plainText) h
  have hlettered : Lettered (marks (Inline.plainTextOf ns)) :=
    hl.of_flagged (fun gap => (hflagged gap).1) (hflagged false).2
  refine ⟨.code i hwords hlettered, ?_⟩
  rw [written_code i hwords]
  exact hlettered.alike hl (hflagged true).1

theorem isEmptyText_of_mem_normalize (hn : n ∈ normalize ns) : n.isEmptyText = false := by
  have := (List.mem_filter.mp ((Inline.trimHardBreaks_sublist _).subset hn)).2
  simpa using this

/-- A node that a formatting command makes, or its content in place, shows what the content does. -/
theorem Holds.pushStyled (h : Holds f) (hns : ∀ n ∈ ns, Sturdy n ∧ n.isEmptyText = false)
    (hl : Lettered (written ns)) (info : NodeInfo) (style : InlineStyle) :
    let f' := match style with
      | .strong => f.push (.strong info ns)
      | .emphasis => f.push (.emphasis info ns)
      | .code => f.push (.code info (Inline.plainTextOf ns))
      | .plain => f.pushAll ns
    Holds f' ∧ Alike (gathered f') (gathered f ++ written ns) := by
  have hsturdy : ∀ n ∈ ns, Sturdy n := fun n hn => (hns n hn).1
  cases style with
  | strong =>
    obtain ⟨hholds, heq⟩ := h.push (.strong info hsturdy hl) rfl
    refine ⟨hholds, ?_⟩
    rw [heq, written_strong]
    exact .refl _
  | emphasis =>
    obtain ⟨hholds, heq⟩ := h.push (.emphasis info hsturdy hl) rfl
    refine ⟨hholds, ?_⟩
    rw [heq, written_emphasis]
    exact .refl _
  | code =>
    obtain ⟨hcode, halike⟩ := code_of_lettered hsturdy hl info
    obtain ⟨hholds, heq⟩ := h.push hcode rfl
    refine ⟨hholds, ?_⟩
    rw [heq]
    exact (Alike.refl _).append halike
  | plain =>
    obtain ⟨hholds, heq⟩ := h.pushAll hns
    refine ⟨hholds, ?_⟩
    rw [heq]
    exact .refl _

/-- A formatted group leaves what is said of its marks. -/
theorem closeArgument_alike (command : Marker) (style : InlineStyle) (hf : Holds f)
    (ho : Holds outer) (stop : Nat) :
    Holds (State.closeArgument (.styled command style) f stop outer) ∧
      Alike (gathered (State.closeArgument (.styled command style) f stop outer))
        (gathered outer ++ closed (gathered f)) := by
  obtain ⟨hnil, hfinish⟩ := normalize_alike hf.sturdy
  have hstart := hf.leadingSpace_iff
  have hend := hf.trailingSpace_iff
  simp only [State.closeArgument]
  by_cases hempty : f.finish = []
  · -- Nothing but gaps was read, and a space at an edge of them stays.
    have hletters : letters (gathered f) = [] := hnil.mp hempty
    obtain ⟨hholds, heq⟩ := ho.pushSpace (f.leadingSpace || f.trailingSpace) command.token.start
      command.token.start
    rw [hempty, List.isEmpty_nil, Bool.and_true, if_pos rfl]
    refine ⟨hholds, ?_⟩
    rw [heq, closed, if_pos hletters]
    simp only [Bool.or_eq_true, hstart, hend]
    exact .refl _
  · -- The content is lettered, and a space at an edge of it stands outside.
    have hletters : letters (gathered f) ≠ [] := mt hnil.mpr hempty
    obtain ⟨halike, hlettered⟩ := hfinish hempty
    obtain ⟨hbefore, heqBefore⟩ := ho.pushSpace f.leadingSpace command.token.start
      command.token.start
    obtain ⟨hstyled, halikeStyled⟩ := hbefore.pushStyled
      (fun n (hn : n ∈ f.finish) => ⟨(flagged_normalize hf.sturdy).1 n hn, isEmptyText_of_mem_normalize hn⟩)
      hlettered (.span command.token.start stop) style
    obtain ⟨hafter, heqAfter⟩ := hstyled.pushSpace f.trailingSpace stop stop
    rw [List.isEmpty_eq_false_iff.mpr hempty, Bool.and_false, Bool.or_false, if_neg (by simp)]
    refine ⟨hafter, .of_eq heqAfter ?_⟩
    rw [heqBefore] at halikeStyled
    simp only [hstart, hend] at halikeStyled ⊢
    rw [closed, if_neg hletters, edge, edge, ← List.append_assoc, ← List.append_assoc]
    exact (halikeStyled.trans ((Alike.refl _).append halike)).append (.refl _)

end Breaks

end LatexMarkdown
