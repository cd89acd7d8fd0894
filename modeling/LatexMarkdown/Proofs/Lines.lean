import LatexMarkdown.Position
import Mathlib.Data.List.Sort
/-!
  The line and column of an offset, without a table.

  `Text.IsLineStart` says where the lines of a text begin, and `Text.Locates` what the line and the
  column of an offset are: lines are counted, and columns go from the last line start at or before
  the offset.  Main statement: `LineTable.locates_position`, the bisection finds just that.
-/
namespace LatexMarkdown

namespace Text

/-- A line begins at `n`: at the front of the text, or right behind a line break.  A carriage return
with a line feed behind it does not break the line yet. -/
def IsLineStart (t : Text) (n : Nat) : Prop :=
  n = 0 ∨ (0 < n ∧ (t[n - 1]? = some 0x0A ∨ (t[n - 1]? = some 0x0D ∧ t[n]? ≠ some 0x0A)))

instance (t : Text) (n : Nat) : Decidable (t.IsLineStart n) := by
  unfold IsLineStart
  infer_instance

/-- The position of an offset: so many lines begin at or before it, and the column counts from where
the last of them begins. -/
structure Locates (t : Text) (offset : Nat) (p : Position) : Prop where
  line : p.line = ((List.range (offset + 1)).filter (t.IsLineStart ·)).length
  column : ∃ start, t.IsLineStart start ∧ start ≤ offset ∧
    (∀ n, start < n → n ≤ offset → ¬ t.IsLineStart n) ∧ p.column = offset - start + 1

/-! ## Line starts -/

theorem mem_lineStartsFrom {start n : Nat} {t : Text} :
    n ∈ lineStartsFrom start t ↔
      start < n ∧ (t[n - start - 1]? = some 0x0A ∨
        (t[n - start - 1]? = some 0x0D ∧ t[n - start]? ≠ some 0x0A)) := by
  induction t generalizing start with
  | nil => simp [lineStartsFrom]
  | cons u rest ih =>
    -- Behind the first unit the same units stand one index further.
    have hrest : n ∈ lineStartsFrom (start + 1) rest ↔ start + 1 < n ∧
        ((u :: rest)[n - start - 1]? = some 0x0A ∨
          ((u :: rest)[n - start - 1]? = some 0x0D ∧ (u :: rest)[n - start]? ≠ some 0x0A)) := by
      rw [ih]
      refine and_congr_right fun hlt => ?_
      obtain ⟨k, rfl⟩ : ∃ k, n = start + 1 + k + 1 := ⟨n - start - 2, by omega⟩
      have h₁ : start + 1 + k + 1 - (start + 1) - 1 = k := by omega
      have h₂ : start + 1 + k + 1 - (start + 1) = k + 1 := by omega
      have h₃ : start + 1 + k + 1 - start - 1 = k + 1 := by omega
      have h₄ : start + 1 + k + 1 - start = k + 1 + 1 := by omega
      rw [h₁, h₂, h₃, h₄, List.getElem?_cons_succ, List.getElem?_cons_succ]
    -- The first unit breaks the line or does not.
    have hfirst : (u = 0x0A || (u = 0x0D && rest.head? ≠ some 0x0A)) = true ↔
        u = 0x0A ∨ (u = 0x0D ∧ rest[0]? ≠ some 0x0A) := by
      simp [List.head?_eq_getElem?]
    have hstep : start < n ↔ n = start + 1 ∨ start + 1 < n := by omega
    rw [lineStartsFrom, hstep, or_and_right, ← hrest]
    split
    · next hbreak =>
      rw [List.mem_cons]
      refine or_congr_left ⟨?_, And.left⟩
      rintro rfl
      simpa using hfirst.mp hbreak
    · next hbreak =>
      refine ⟨.inr, fun h => h.resolve_left ?_⟩
      rintro ⟨rfl, h⟩
      exact hbreak (hfirst.mpr (by simpa using h))

theorem pairwise_lineStartsFrom (start : Nat) (t : Text) :
    (lineStartsFrom start t).Pairwise (· < ·) := by
  induction t generalizing start with
  | nil => exact .nil
  | cons u rest ih =>
    rw [lineStartsFrom]
    split
    · exact .cons (fun n hn => (mem_lineStartsFrom.mp hn).1) (ih (start + 1))
    · exact ih (start + 1)

/-- The table lists the line starts. -/
theorem mem_lineStarts {t : Text} {n : Nat} : n ∈ t.lineStarts ↔ t.IsLineStart n := by
  rw [lineStarts, List.mem_cons, mem_lineStartsFrom]
  rfl

/-- The table is in order. -/
theorem pairwise_lineStarts (t : Text) : t.lineStarts.Pairwise (· < ·) :=
  .cons (fun _ hn => (mem_lineStartsFrom.mp hn).1) (pairwise_lineStartsFrom 0 t)

end Text

/-! ## Bisection -/

namespace LineTable

/-- An index of a list whose entry is the last one that is not behind an offset. -/
structure IsLast (l : List Nat) (offset r : Nat) : Prop where
  lt : r < l.length
  le : l[r] ≤ offset
  above : ∀ i (h : i < l.length), r < i → offset < l[i]

variable {l : List Nat} {offset : Nat}

/-- Bisection in a table in order stops at the last entry that is not behind the offset. -/
theorem isLast_seek (hl : l.Pairwise (· < ·)) {low high : Nat} (hhigh : high < l.length)
    (hle : low ≤ high) (hlow : l[low] ≤ offset)
    (habove : ∀ i (h : i < l.length), high < i → offset < l[i]) :
    IsLast l offset (seek l.toArray offset low high) := by
  fun_induction seek l.toArray offset low high with
  | case1 low high hlt middle hmiddle ih =>
    have hmid : middle < l.length := by omega
    exact ih hhigh (by omega) (by simpa [hmid] using hmiddle) habove
  | case2 low high hlt middle hmiddle ih =>
    refine ih (by omega) (by omega) hlow fun i hi hmi => ?_
    -- What comes behind the middle lies behind the offset like the middle.
    have hmid : middle < l.length := by omega
    have hgt : offset < l[middle] := by simpa [hmid] using hmiddle
    rcases Nat.lt_or_eq_of_le (show middle ≤ i by omega) with hlt' | rfl
    · exact Nat.lt_trans hgt (List.pairwise_iff_getElem.mp hl middle i hmid hi hlt')
    · exact hgt
  | case3 low high hge =>
    obtain rfl : low = high := by omega
    exact ⟨hhigh, hlow, habove⟩

/-- In a list in order the entries not behind an offset are those up to the last of them. -/
theorem IsLast.filter_eq_take {r : Nat} (hl : l.Pairwise (· < ·)) (h : IsLast l offset r) :
    l.filter (· ≤ offset) = l.take (r + 1) := by
  have hfront : (l.take (r + 1)).filter (· ≤ offset) = l.take (r + 1) := by
    rw [List.filter_eq_self]
    intro n hn
    obtain ⟨i, hi, rfl⟩ := List.mem_take_iff_getElem.mp hn
    rcases Nat.lt_or_eq_of_le (show i ≤ r by omega) with hlt | rfl
    · have hless := List.pairwise_iff_getElem.mp hl i r (by omega) h.lt hlt
      exact decide_eq_true (Nat.le_trans (Nat.le_of_lt hless) h.le)
    · exact decide_eq_true h.le
  have hback : (l.drop (r + 1)).filter (· ≤ offset) = [] := by
    rw [List.filter_eq_nil_iff]
    intro n hn
    obtain ⟨i, hi, rfl⟩ := List.mem_drop_iff_getElem.mp hn
    simpa using h.above (r + 1 + i) (by omega) (by omega)
  rw [← List.take_append_drop (r + 1) l, List.filter_append, hfront, hback, List.append_nil,
    List.take_append_drop]

/-- No other entry lies between the last one and the offset. -/
theorem IsLast.not_mem {r n : Nat} (hl : l.Pairwise (· < ·)) (h : IsLast l offset r)
    (hr : r < l.length) (hlt : l[r] < n) (hle : n ≤ offset) : n ∉ l := by
  intro hmem
  obtain ⟨i, hi, rfl⟩ := List.mem_iff_getElem.mp hmem
  rcases Nat.lt_trichotomy i r with hir | rfl | hri
  · exact Nat.lt_asymm hlt (List.pairwise_iff_getElem.mp hl i r hi hr hir)
  · exact Nat.lt_irrefl _ hlt
  · exact Nat.not_lt_of_le hle (h.above i hi hri)

/-- The index at which the table of a text is left. -/
theorem isLast_lineStarts (t : Text) (offset : Nat) :
    IsLast t.lineStarts offset (seek (LineTable.ofText t) offset 0 (t.lineStarts.length - 1)) :=
  isLast_seek t.pairwise_lineStarts (Nat.sub_lt (Nat.succ_pos _) Nat.one_pos) (Nat.zero_le _)
    (Nat.zero_le _) fun i hi hgt => by omega

/-- The position that the table of a text gives an offset is read off at the last line start that is
not behind the offset. -/
theorem exists_position_eq (t : Text) (offset : Nat) :
    ∃ r, ∃ hlt : r < t.lineStarts.length, IsLast t.lineStarts offset r ∧
      (LineTable.ofText t).position offset = ⟨r + 1, offset - t.lineStarts[r] + 1⟩ := by
  have hsize : (LineTable.ofText t).size = t.lineStarts.length := List.size_toArray
  have hlast := isLast_lineStarts t offset
  simp only [position, hsize]
  generalize seek (LineTable.ofText t) offset 0 (t.lineStarts.length - 1) = r at hlast
  have hlt := hlast.lt
  have hget : (LineTable.ofText t).getD r default = t.lineStarts[r] := by
    simp [LineTable.ofText, Array.getD, hlt]
  exact ⟨r, hlt, hlast, by rw [hget]⟩

/-- The position that the table of a text gives an offset is its line and column. -/
theorem locates_position (t : Text) (offset : Nat) :
    t.Locates offset ((LineTable.ofText t).position offset) := by
  have hl := t.pairwise_lineStarts
  obtain ⟨r, hlt, hlast, heq⟩ := exists_position_eq t offset
  rw [heq]
  refine ⟨?_, t.lineStarts[r], Text.mem_lineStarts.mp (List.getElem_mem hlt), hlast.le, ?_, rfl⟩
  · -- The lines that begin up to the offset are the first entries of the table.
    have hsame : (List.range (offset + 1)).filter (t.IsLineStart ·)
        = t.lineStarts.filter (· ≤ offset) := by
      refine List.Pairwise.eq_of_mem_iff (r := (· < ·)) (List.pairwise_lt_range.filter _)
        (hl.filter _) fun n => ?_
      simp only [List.mem_filter, List.mem_range, decide_eq_true_eq, Text.mem_lineStarts,
        Nat.lt_succ_iff]
      exact and_comm
    rw [hsame, hlast.filter_eq_take hl, List.length_take]
    exact (Nat.min_eq_left hlt).symm
  · exact fun n hn hnle hstart => hlast.not_mem hl hlt hn hnle (Text.mem_lineStarts.mpr hstart)

end LineTable

end LatexMarkdown
