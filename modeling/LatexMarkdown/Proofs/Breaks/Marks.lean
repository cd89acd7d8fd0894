import LatexMarkdown.Text.Blank
import Mathlib.Data.List.DropRight
import Mathlib.Data.List.Induction
/-!
  Letters and what stands between them.

  A text is taken for its `Mark`s: letters and digits, spaces, and line feeds, which are what forced
  breaks become.  `Apart` says that something other than a letter stands between given letters.
  Lists of marks are compared by `flagged`, which keeps of a gap only that it is there, and by their
  first and last mark; `Alike` says that both agree, and goes along with appending.

  `closed` is what a formatted group leaves of the marks in it: the breaks at its edges are dropped,
  and a space that stands right at an edge goes outside.
-/
namespace LatexMarkdown

/-- ASCII letters and digits. -/
def CodeUnit.isAlphanumeric (u : CodeUnit) : Bool := u.isLetter || u.isDigit

namespace Breaks

/-- What counts in a text where words are kept apart. -/
inductive Mark
  | letter (u : CodeUnit)
  | space
  | hardBreak
  deriving DecidableEq, Repr

/-- The letter or digit, if it is one. -/
def Mark.letter? : Mark → Option CodeUnit
  | letter u => some u
  | _ => none

/-- What a unit counts for. -/
def Mark.ofUnit? (u : CodeUnit) : Option Mark :=
  if u.isAlphanumeric then some (.letter u)
  else if u = 0x20 then some .space
  else if u = 0x0A then some .hardBreak
  else none

/-- The marks of a text. -/
def marks (t : Text) : List Mark := t.filterMap Mark.ofUnit?

/-- The letters among marks. -/
def letters (ms : List Mark) : Text := ms.filterMap Mark.letter?

@[simp] theorem marks_nil : marks [] = [] := rfl

theorem marks_append (s t : Text) : marks (s ++ t) = marks s ++ marks t := List.filterMap_append

@[simp] theorem letters_nil : letters [] = [] := rfl

theorem letters_append (ms ns : List Mark) : letters (ms ++ ns) = letters ms ++ letters ns :=
  List.filterMap_append

/-- Something other than a letter stands behind the letters `l` and before the letters `r`. -/
def Apart (ms : List Mark) (l r : Text) : Prop :=
  ∃ before gap after, ms = before ++ gap :: after ∧ gap.letter? = none ∧
    letters before = l ∧ letters after = r

/-- A space or a line feed stands behind the letters `l` and before the letters `r`. -/
def KeepsApart (t l r : Text) : Prop :=
  ∃ before u after, t = before ++ u :: after ∧ (u = 0x20 ∨ u = 0x0A) ∧
    before.filter CodeUnit.isAlphanumeric = l ∧ after.filter CodeUnit.isAlphanumeric = r

/-! ## Marks of a text -/

theorem letters_marks (t : Text) : letters (marks t) = t.filter CodeUnit.isAlphanumeric := by
  induction t with
  | nil => rfl
  | cons u rest ih =>
    cases hu : u.isAlphanumeric with
    | true => simpa [marks, letters, Mark.ofUnit?, hu, Mark.letter?] using ih
    | false =>
      rw [List.filter_cons_of_neg (by simp [hu]), ← ih]
      simp only [marks, letters, List.filterMap_cons, Mark.ofUnit?, hu, Bool.false_eq_true, if_false]
      split
      · rfl
      · next m hm =>
        have hgap : m.letter? = none := by
          split at hm
          · cases hm; rfl
          · split at hm
            · cases hm; rfl
            · cases hm
        rw [List.filterMap_cons, hgap]

/-- A unit counts for a gap when it is a space or a line feed. -/
theorem ofUnit?_gap {u : CodeUnit} {gap : Mark} (h : Mark.ofUnit? u = some gap)
    (hgap : gap.letter? = none) : u = 0x20 ∨ u = 0x0A := by
  unfold Mark.ofUnit? at h
  split at h
  · cases h
    cases hgap
  · split at h
    · next hu => exact .inl hu
    · split at h
      · next hu => exact .inr hu
      · cases h

theorem exists_ofUnit?_gap {u : CodeUnit} (h : u = 0x20 ∨ u = 0x0A) :
    ∃ gap, Mark.ofUnit? u = some gap ∧ gap.letter? = none := by
  rcases h with rfl | rfl
  · exact ⟨.space, by decide, rfl⟩
  · exact ⟨.hardBreak, by decide, rfl⟩

/-- A text keeps letters apart just when its marks do. -/
theorem keepsApart_iff {t l r : Text} : KeepsApart t l r ↔ Apart (marks t) l r := by
  constructor
  · rintro ⟨before, u, after, rfl, hu, rfl, rfl⟩
    obtain ⟨gap, hgap, hnone⟩ := exists_ofUnit?_gap hu
    refine ⟨marks before, gap, marks after, ?_, hnone, letters_marks before, letters_marks after⟩
    rw [marks_append, marks, marks, List.filterMap_cons, hgap]
    rfl
  · rintro ⟨ms, gap, ns, heq, hnone, rfl, rfl⟩
    obtain ⟨before, rest, rfl, rfl, hrest⟩ := List.filterMap_eq_append_iff.mp heq
    obtain ⟨skipped, u, after, rfl, hskipped, hu, rfl⟩ := List.filterMap_eq_cons_iff.mp hrest
    have hletters : skipped.filter CodeUnit.isAlphanumeric = [] := by
      rw [← letters_marks, marks, List.filterMap_eq_nil_iff.mpr hskipped]
      rfl
    refine ⟨before ++ skipped, u, after, by simp, ofUnit?_gap hu hnone, ?_, ?_⟩
    · rw [List.filter_append, hletters, List.append_nil, ← letters_marks]
      rfl
    · rw [← letters_marks]
      rfl

/-! ## Gaps -/

/-- The letters, each with whether a gap stands right before it; `gap` says that one comes before
the first mark. -/
def flagged (gap : Bool) : List Mark → List (Bool × CodeUnit)
  | [] => []
  | .letter u :: rest => (gap, u) :: flagged false rest
  | _ :: rest => flagged true rest

/-- Do the marks end with a gap? -/
def endsInGap (gap : Bool) : List Mark → Bool
  | [] => gap
  | .letter _ :: rest => endsInGap false rest
  | _ :: rest => endsInGap true rest

theorem flagged_append (gap : Bool) (ms ns : List Mark) :
    flagged gap (ms ++ ns) = flagged gap ms ++ flagged (endsInGap gap ms) ns := by
  induction ms generalizing gap with
  | nil => rfl
  | cons m rest ih => cases m <;> simp [flagged, endsInGap, ih]

theorem endsInGap_append (gap : Bool) (ms ns : List Mark) :
    endsInGap gap (ms ++ ns) = endsInGap (endsInGap gap ms) ns := by
  induction ms generalizing gap with
  | nil => rfl
  | cons m rest ih => cases m <;> simp [endsInGap, ih]

@[simp] theorem letters_letter (u : CodeUnit) (ms : List Mark) :
    letters (.letter u :: ms) = u :: letters ms := rfl

theorem letters_gap {m : Mark} (h : m.letter? = none) (ms : List Mark) :
    letters (m :: ms) = letters ms := by
  rw [letters, List.filterMap_cons, h]
  rfl

theorem flagged_gap {gap : Bool} {m : Mark} (h : m.letter? = none) (ms : List Mark) :
    flagged gap (m :: ms) = flagged true ms := by
  cases m with
  | letter u => cases h
  | _ => rfl

theorem endsInGap_gap {gap : Bool} {m : Mark} (h : m.letter? = none) (ms : List Mark) :
    endsInGap gap (m :: ms) = endsInGap true ms := by
  cases m with
  | letter u => cases h
  | _ => rfl

/-- A mark is a letter or a gap. -/
theorem Mark.cases (m : Mark) : (∃ u, m = .letter u) ∨ m.letter? = none := by
  cases m with
  | letter u => exact .inl ⟨u, rfl⟩
  | _ => exact .inr rfl

theorem map_snd_flagged (gap : Bool) (ms : List Mark) :
    (flagged gap ms).map Prod.snd = letters ms := by
  induction ms generalizing gap with
  | nil => rfl
  | cons m rest ih =>
    rcases m.cases with ⟨u, rfl⟩ | hm
    · rw [flagged, List.map_cons, ih, letters_letter]
    · rw [flagged_gap hm, ih, letters_gap hm]

theorem flagged_eq_nil_iff {gap : Bool} {ms : List Mark} :
    flagged gap ms = [] ↔ letters ms = [] := by
  rw [← map_snd_flagged gap, List.map_eq_nil_iff]

theorem apart_letter {u : CodeUnit} {ms : List Mark} {l r : Text} :
    Apart (.letter u :: ms) l r ↔ ∃ l', l = u :: l' ∧ Apart ms l' r := by
  constructor
  · rintro ⟨before, gap, after, heq, hgap, rfl, rfl⟩
    cases before with
    | nil =>
      obtain ⟨rfl, -⟩ := List.cons.inj heq
      cases hgap
    | cons m before =>
      obtain ⟨rfl, rfl⟩ := List.cons.inj heq
      exact ⟨letters before, rfl, before, gap, after, rfl, hgap, rfl, rfl⟩
  · rintro ⟨l', rfl, before, gap, after, rfl, hgap, rfl, rfl⟩
    exact ⟨.letter u :: before, gap, after, rfl, hgap, rfl, rfl⟩

theorem apart_gap {m : Mark} (hm : m.letter? = none) {ms : List Mark} {l r : Text} :
    Apart (m :: ms) l r ↔ (l = [] ∧ letters ms = r) ∨ Apart ms l r := by
  constructor
  · rintro ⟨before, gap, after, heq, hgap, rfl, rfl⟩
    cases before with
    | nil =>
      obtain ⟨rfl, rfl⟩ := List.cons.inj heq
      exact .inl ⟨rfl, rfl⟩
    | cons m' before =>
      obtain ⟨rfl, rfl⟩ := List.cons.inj heq
      exact .inr ⟨before, gap, after, rfl, hgap, (letters_gap hm before).symm, rfl⟩
  · rintro (⟨rfl, rfl⟩ | ⟨before, gap, after, rfl, hgap, rfl, rfl⟩)
    · exact ⟨[], m, ms, rfl, hm, rfl, rfl⟩
    · exact ⟨m :: before, gap, after, rfl, hgap, letters_gap hm before, rfl⟩

/-- Letters are kept apart where a flag says so, behind a gap or not. -/
theorem apart_or_iff {ms : List Mark} {l r : Text} (hr : r ≠ []) (gap : Bool) :
    Apart ms l r ∨ (gap = true ∧ l = [] ∧ letters ms = r) ↔
      ∃ before u after, flagged gap ms = before ++ (true, u) :: after ∧
        before.map Prod.snd = l ∧ u :: after.map Prod.snd = r := by
  induction ms generalizing gap l with
  | nil => simp [Apart, flagged, hr.symm]
  | cons m rest ih =>
    rcases m.cases with ⟨u, rfl⟩ | hm
    · rw [apart_letter, flagged]
      constructor
      · rintro (⟨l', rfl, hrest⟩ | ⟨rfl, rfl, rfl⟩)
        · obtain ⟨before, v, after, heq, rfl, rfl⟩ := (ih false).mp (.inl hrest)
          exact ⟨(gap, u) :: before, v, after, by rw [heq]; rfl, rfl, rfl⟩
        · exact ⟨[], u, flagged false rest, rfl, rfl, by rw [map_snd_flagged, letters_letter]⟩
      · rintro ⟨before, v, after, heq, rfl, rfl⟩
        cases before with
        | nil =>
          obtain ⟨hhead, rfl⟩ := List.cons.inj heq
          cases hhead
          exact .inr ⟨rfl, rfl, by rw [letters_letter, map_snd_flagged]⟩
        | cons flag before =>
          obtain ⟨rfl, hrest⟩ := List.cons.inj heq
          refine .inl ⟨before.map Prod.snd, rfl, ?_⟩
          exact ((ih false).mpr ⟨before, v, after, hrest, rfl, rfl⟩).resolve_right (by simp)
    · rw [apart_gap hm, flagged_gap hm, letters_gap hm, ← ih true]
      constructor
      · rintro ((h | h) | ⟨-, h⟩)
        · exact .inr ⟨rfl, h⟩
        · exact .inl h
        · exact .inr ⟨rfl, h⟩
      · rintro (h | ⟨-, h⟩)
        · exact .inl (.inr h)
        · exact .inl (.inl h)

/-- Behind something, marks with the same flags keep the same letters apart. -/
theorem apart_congr {ms ns : List Mark} {l r : Text} (hl : l ≠ []) (hr : r ≠ [])
    (h : flagged true ms = flagged true ns) : Apart ms l r ↔ Apart ns l r := by
  have hdrop (ms : List Mark) : Apart ms l r ↔
      Apart ms l r ∨ (true = true ∧ l = [] ∧ letters ms = r) := by simp [hl]
  rw [hdrop ms, hdrop ns, apart_or_iff hr, apart_or_iff hr, h]

/-! ## Marks that go for one another -/

/-- The two lists have the same letters with gaps at the same places, and begin and end alike. -/
structure Alike (ms ns : List Mark) : Prop where
  flagged_eq : ∀ gap, flagged gap ms = flagged gap ns
  endsInGap_eq : ∀ gap, endsInGap gap ms = endsInGap gap ns
  head?_eq : ms.head? = ns.head?
  getLast?_eq : ms.getLast? = ns.getLast?

theorem Alike.refl (ms : List Mark) : Alike ms ms := ⟨fun _ => rfl, fun _ => rfl, rfl, rfl⟩

theorem Alike.of_eq {ms ns ps : List Mark} (h : ms = ns) (h' : Alike ns ps) : Alike ms ps := h ▸ h'

theorem Alike.trans {ms ns ps : List Mark} (h : Alike ms ns) (h' : Alike ns ps) : Alike ms ps :=
  ⟨fun gap => (h.flagged_eq gap).trans (h'.flagged_eq gap),
    fun gap => (h.endsInGap_eq gap).trans (h'.endsInGap_eq gap), h.head?_eq.trans h'.head?_eq,
    h.getLast?_eq.trans h'.getLast?_eq⟩

theorem Alike.letters_eq {ms ns : List Mark} (h : Alike ms ns) : letters ms = letters ns := by
  rw [← map_snd_flagged false, h.flagged_eq, map_snd_flagged]

theorem Alike.append {ms ms' ns ns' : List Mark} (h : Alike ms ms') (h' : Alike ns ns') :
    Alike (ms ++ ns) (ms' ++ ns') := by
  refine ⟨fun gap => ?_, fun gap => ?_, ?_, ?_⟩
  · rw [flagged_append, flagged_append, h.flagged_eq, h.endsInGap_eq, h'.flagged_eq]
  · rw [endsInGap_append, endsInGap_append, h.endsInGap_eq, h'.endsInGap_eq]
  · rw [List.head?_append, List.head?_append, h.head?_eq, h'.head?_eq]
  · rw [List.getLast?_append, List.getLast?_append, h.getLast?_eq, h'.getLast?_eq]

/-- The marks begin and end with a letter. -/
structure Lettered (ms : List Mark) : Prop where
  head : ∃ u, ms.head? = some (.letter u)
  last : ∃ u, ms.getLast? = some (.letter u)

theorem Lettered.letters_ne_nil {ms : List Mark} (h : Lettered ms) : letters ms ≠ [] := by
  obtain ⟨u, hu⟩ := h.head
  obtain ⟨rest, rfl⟩ := List.head?_eq_some_iff.mp hu
  simp

theorem Lettered.flagged_eq {ms : List Mark} (h : Lettered ms) :
    ∃ u rest, letters ms = u :: rest.map Prod.snd ∧ ms.head? = some (.letter u) ∧
      ∀ gap, flagged gap ms = (gap, u) :: rest := by
  obtain ⟨u, hu⟩ := h.head
  obtain ⟨rest, rfl⟩ := List.head?_eq_some_iff.mp hu
  exact ⟨u, flagged false rest, by rw [letters_letter, map_snd_flagged], rfl, fun _ => rfl⟩

theorem Lettered.endsInGap_eq {ms : List Mark} (h : Lettered ms) (gap : Bool) :
    endsInGap gap ms = false := by
  obtain ⟨u, hu⟩ := h.last
  obtain ⟨front, rfl⟩ := List.getLast?_eq_some_iff.mp hu
  rw [endsInGap_append]
  rfl

theorem Lettered.getLast?_eq {ms : List Mark} (h : Lettered ms) :
    ms.getLast? = (letters ms).getLast?.map Mark.letter := by
  obtain ⟨u, hu⟩ := h.last
  obtain ⟨front, rfl⟩ := List.getLast?_eq_some_iff.mp hu
  simp [letters_append]

/-- Between letters, the same flags are all that counts. -/
theorem Lettered.alike {ms ns : List Mark} (h : Lettered ms) (h' : Lettered ns)
    (hflagged : flagged true ms = flagged true ns) : Alike ms ns := by
  obtain ⟨u, rest, hletters, hhead, heq⟩ := h.flagged_eq
  obtain ⟨u', rest', hletters', hhead', heq'⟩ := h'.flagged_eq
  rw [heq, heq'] at hflagged
  cases hflagged
  refine ⟨fun gap => by rw [heq, heq'], fun gap => by rw [h.endsInGap_eq, h'.endsInGap_eq],
    hhead.trans hhead'.symm, ?_⟩
  rw [h.getLast?_eq, h'.getLast?_eq, hletters, hletters']

/-- Flags that go by the gap before them begin with a letter. -/
theorem Lettered.of_flagged {ms ns : List Mark} (h : Lettered ms)
    (hflagged : ∀ gap, flagged gap ns = flagged gap ms)
    (hends : endsInGap false ns = endsInGap false ms) : Lettered ns := by
  obtain ⟨u, rest, -, -, heq⟩ := h.flagged_eq
  simp only [heq] at hflagged
  rw [h.endsInGap_eq] at hends
  refine ⟨?_, ?_⟩
  · cases ns with
    | nil => cases hflagged false
    | cons m more =>
      rcases m.cases with ⟨v, rfl⟩ | hm
      · exact ⟨v, rfl⟩
      · have hfalse := hflagged false
        rw [flagged_gap hm, ← flagged_gap hm, hflagged true] at hfalse
        cases hfalse
  · rcases List.eq_nil_or_concat ns with rfl | ⟨front, m, rfl⟩
    · cases hflagged false
    · rw [List.concat_eq_append] at hends ⊢
      rcases m.cases with ⟨v, rfl⟩ | hm
      · exact ⟨v, by simp⟩
      · rw [endsInGap_append, endsInGap_gap hm] at hends
        cases hends

/-! ## What a formatted group leaves -/

/-- A space for an edge that has one. -/
def edge (m? : Option Mark) : List Mark := if m? = some .space then [.space] else []

/-- Is the mark no letter? -/
def Mark.isGap (m : Mark) : Bool := m.letter?.isNone

/-- Without the gaps at both ends. -/
def trimmed (ms : List Mark) : List Mark := (ms.dropWhile Mark.isGap).rdropWhile Mark.isGap

/-- What a formatted group leaves of the marks in it.  Without letters that is at most a space, for one
that stands right at an edge; else the gaps at the edges are dropped, and a space right at an edge
goes outside. -/
def closed (ms : List Mark) : List Mark :=
  if letters ms = [] then
    if ms.head? = some .space ∨ ms.getLast? = some .space then [.space] else []
  else edge ms.head? ++ trimmed ms ++ edge ms.getLast?

theorem flagged_dropWhile (ms : List Mark) :
    flagged true (ms.dropWhile Mark.isGap) = flagged true ms := by
  induction ms with
  | nil => rfl
  | cons m rest ih =>
    rcases m.cases with ⟨u, rfl⟩ | hm
    · rfl
    · rw [List.dropWhile_cons_of_pos (by simp [Mark.isGap, hm]), ih, flagged_gap hm]

theorem Mark.isGap_iff {m : Mark} : m.isGap = true ↔ m.letter? = none := Option.isNone_iff_eq_none

/-- A mark that is no gap is a letter. -/
theorem Mark.exists_letter {m : Mark} (h : ¬ m.isGap = true) : ∃ u, m = .letter u :=
  m.cases.resolve_right (mt isGap_iff.mpr h)

theorem flagged_rdropWhile (gap : Bool) (ms : List Mark) :
    flagged gap (ms.rdropWhile Mark.isGap) = flagged gap ms := by
  induction ms using List.reverseRecOn with
  | nil => rfl
  | append_singleton ms m ih =>
    by_cases hm : m.isGap = true
    · rw [List.rdropWhile_concat_pos _ _ _ hm, ih, flagged_append, flagged_gap (Mark.isGap_iff.mp hm)]
      simp [flagged]
    · rw [List.rdropWhile_concat_neg _ _ _ hm]

theorem flagged_trimmed (ms : List Mark) : flagged true (trimmed ms) = flagged true ms := by
  rw [trimmed, flagged_rdropWhile, flagged_dropWhile]

theorem lettered_trimmed {ms : List Mark} (h : letters ms ≠ []) : Lettered (trimmed ms) := by
  have hne : trimmed ms ≠ [] := by
    intro hnil
    have hflagged := flagged_trimmed ms
    rw [hnil] at hflagged
    exact h (flagged_eq_nil_iff.mp hflagged.symm)
  refine ⟨?_, ?_⟩
  · obtain ⟨m, rest, htrimmed⟩ := List.exists_cons_of_ne_nil hne
    obtain ⟨back, hback⟩ := List.rdropWhile_prefix (p := Mark.isGap) (l := ms.dropWhile Mark.isGap)
    rw [← trimmed, htrimmed] at hback
    have hhead := List.head?_dropWhile_not Mark.isGap ms
    rw [← hback] at hhead
    obtain ⟨u, rfl⟩ := m.exists_letter (by simpa using hhead)
    exact ⟨u, by rw [htrimmed]; rfl⟩
  · obtain ⟨u, hu⟩ := Mark.exists_letter (List.rdropWhile_last_not _ _ hne)
    exact ⟨u, by rw [List.getLast?_eq_some_getLast hne]; exact congrArg some hu⟩

/-- Marks that go for one another leave the like. -/
theorem closed_congr {ms ns : List Mark} (h : Alike ms ns) : Alike (closed ms) (closed ns) := by
  unfold closed
  rw [h.letters_eq, h.head?_eq, h.getLast?_eq]
  split
  · exact .refl _
  · next hne =>
    have htrimmed : Alike (trimmed ms) (trimmed ns) :=
      (lettered_trimmed (h.letters_eq ▸ hne)).alike (lettered_trimmed hne)
        (by rw [flagged_trimmed, flagged_trimmed, h.flagged_eq])
    exact ((Alike.refl _).append htrimmed).append (.refl _)

end Breaks

end LatexMarkdown
