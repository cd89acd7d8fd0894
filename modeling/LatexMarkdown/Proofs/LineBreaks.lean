import LatexMarkdown.Proofs.Lines
import Mathlib.Data.Prod.Lex
import Mathlib.Data.Set.Card
import Mathlib.Order.Interval.Finset.Nat
/-!
  Offsets and positions correspond one to one.

  `Text.BreaksAt` says what a line break is, apart from any table: a carriage return and a line feed
  together, or one of them alone.  The line starts behind the first are just where these end, so the
  line of an offset counts the breaks up to it, and the offset is read back from its line and column.
  Main statement: `LineTable.position_one_to_one`.
-/
namespace LatexMarkdown

namespace Text

/-- The units from `start` up to `stop` are a line break: a carriage return with the line feed behind
it, or one of the two without the other. -/
inductive BreaksAt (t : Text) : (start stop : Nat) → Prop
  | pair {n : Nat} (hreturn : t[n]? = some 0x0D) (hfeed : t[n + 1]? = some 0x0A) : BreaksAt t n (n + 2)
  | carriageReturn {n : Nat} (hreturn : t[n]? = some 0x0D) (halone : t[n + 1]? ≠ some 0x0A) :
    BreaksAt t n (n + 1)
  | lineFeed {n : Nat} (hfeed : t[n]? = some 0x0A) (halone : ∀ m, n = m + 1 → t[m]? ≠ some 0x0D) :
    BreaksAt t n (n + 1)

variable {t : Text} {n : Nat}

/-- A line break has something in it. -/
theorem BreaksAt.lt {start stop : Nat} (h : t.BreaksAt start stop) : start < stop := by
  cases h <;> omega

/-- Lines begin at the front of a text and right behind its line breaks. -/
theorem isLineStart_iff_breaksAt : t.IsLineStart n ↔ n = 0 ∨ ∃ start, t.BreaksAt start n := by
  refine or_congr_right ⟨?_, ?_⟩
  · rintro ⟨hpos, h⟩
    obtain ⟨m, rfl⟩ : ∃ m, n = m + 1 := ⟨n - 1, by omega⟩
    rw [Nat.add_sub_cancel] at h
    rcases h with hfeed | ⟨hreturn, halone⟩
    · -- A line feed may be the second half of a pair.
      by_cases hpair : ∃ k, m = k + 1 ∧ t[k]? = some 0x0D
      · obtain ⟨k, rfl, hreturn⟩ := hpair
        exact ⟨k, .pair hreturn hfeed⟩
      · exact ⟨m, .lineFeed hfeed fun k hk hreturn => hpair ⟨k, hk, hreturn⟩⟩
    · exact ⟨m, .carriageReturn hreturn halone⟩
  · rintro ⟨start, h⟩
    refine ⟨Nat.zero_lt_of_lt h.lt, ?_⟩
    cases h with
    | pair hreturn hfeed => exact .inl hfeed
    | carriageReturn hreturn halone => exact .inr ⟨hreturn, halone⟩
    | lineFeed hfeed halone => exact .inl hfeed

/-- Where a line break starts is seen at its end: a pair is two units long, any other break one. -/
theorem BreaksAt.start_eq {start stop : Nat} (h : t.BreaksAt start stop) :
    start = if t[stop - 1]? = some 0x0A ∧ 2 ≤ stop ∧ t[stop - 2]? = some 0x0D then stop - 2
      else stop - 1 := by
  cases h with
  | pair hreturn hfeed => rw [if_pos ⟨hfeed, by omega, hreturn⟩, Nat.add_sub_cancel]
  | carriageReturn hreturn halone =>
    rw [if_neg, Nat.add_sub_cancel]
    rintro ⟨hfeed, -⟩
    rw [Nat.add_sub_cancel, hreturn] at hfeed
    exact absurd hfeed (by decide)
  | lineFeed hfeed halone =>
    rw [if_neg, Nat.add_sub_cancel]
    rintro ⟨-, hlong, hreturn⟩
    exact halone (start - 1) (by omega) hreturn

/-- No two line breaks end at one offset. -/
theorem BreaksAt.start_unique {start start' stop : Nat} (h : t.BreaksAt start stop)
    (h' : t.BreaksAt start' stop) : start = start' :=
  h.start_eq.trans h'.start_eq.symm

/-- The line breaks that end at or before an offset. -/
def breaksUpTo (t : Text) (offset : Nat) : Set (Nat × Nat) :=
  {b | t.BreaksAt b.1 b.2 ∧ b.2 ≤ offset}

/-- The line of an offset counts the line breaks up to it. -/
theorem Locates.line_eq_ncard {offset : Nat} {p : Position} (h : t.Locates offset p) :
    p.line = 1 + (t.breaksUpTo offset).ncard := by
  -- A break is known by where it ends, and it ends where a line begins.
  have hinj : Set.InjOn Prod.snd (t.breaksUpTo offset) := by
    rintro ⟨start, stop⟩ ⟨hb, -⟩ ⟨start', stop'⟩ ⟨hb', -⟩ rfl
    exact Prod.ext (hb.start_unique hb') rfl
  have himage : Prod.snd '' t.breaksUpTo offset
      = ((Finset.Ioc 0 offset).filter (t.IsLineStart ·) : Finset Nat) := by
    ext n
    simp only [breaksUpTo, Set.mem_image, Set.mem_ofPred_eq, Prod.exists, exists_eq_right,
      Finset.coe_filter, Finset.mem_Ioc]
    constructor
    · rintro ⟨start, hb, hle⟩
      exact ⟨⟨Nat.zero_lt_of_lt hb.lt, hle⟩, isLineStart_iff_breaksAt.mpr (.inr ⟨start, hb⟩)⟩
    · rintro ⟨⟨hpos, hle⟩, hstart⟩
      obtain ⟨start, hb⟩ := (isLineStart_iff_breaksAt.mp hstart).resolve_left (by omega)
      exact ⟨start, hb, hle⟩
  -- The front of the text is the one line start that is behind no break.
  have hcount : ((List.range (offset + 1)).filter (t.IsLineStart ·)).length
      = ((Finset.range (offset + 1)).filter (t.IsLineStart ·)).card := rfl
  have hrange : Finset.range (offset + 1) = insert 0 (Finset.Ioc 0 offset) := by
    ext n
    simp only [Finset.mem_range, Finset.mem_insert, Finset.mem_Ioc]
    omega
  rw [h.line, hcount, hrange, Finset.filter_insert, if_pos (.inl rfl),
    Finset.card_insert_of_notMem (by simp), ← hinj.ncard_image, himage,
    Set.ncard_coe_finset, Nat.add_comm]

end Text

/-- Line and column, the line first. -/
def Position.key (p : Position) : Nat ×ₗ Nat := toLex (p.line, p.column)

namespace LineTable

/-- A later offset has a later position. -/
theorem strictMono_position (t : Text) :
    StrictMono fun offset => ((LineTable.ofText t).position offset).key := by
  intro o o' hlt
  obtain ⟨r, hr, hlast, heq⟩ := exists_position_eq t o
  obtain ⟨r', hr', hlast', heq'⟩ := exists_position_eq t o'
  have hle : r ≤ r' := by
    -- Else the line of the first offset would begin behind the second.
    by_contra hgt
    have hbehind := hlast'.above r hr (by omega)
    have hbefore := hlast.le
    omega
  simp only [heq, heq', Position.key, Prod.Lex.toLex_lt_toLex]
  rcases Nat.lt_or_eq_of_le hle with hless | rfl
  · exact .inl (by omega)
  · have hbefore := hlast.le
    exact .inr ⟨rfl, by omega⟩

/-- Offsets and positions correspond one to one.  The line table of a text is in order, begins with 0
and lists the ends of the line breaks behind it.  The line of an offset counts the line breaks up to
it, the column leads from the start of that line back to the offset, and a later offset has a later
position. -/
theorem position_one_to_one (t : Text) :
    (t.lineStarts.Pairwise (· < ·) ∧ t.lineStarts.head? = some 0 ∧
      ∀ n, n ∈ t.lineStarts.tail ↔ ∃ start, t.BreaksAt start n) ∧
    (∀ offset, let p := (LineTable.ofText t).position offset
      p.line = 1 + (t.breaksUpTo offset).ncard ∧ 1 ≤ p.column ∧
        ∃ start, t.lineStarts[p.line - 1]? = some start ∧ start + p.column - 1 = offset) ∧
    StrictMono fun offset => ((LineTable.ofText t).position offset).key := by
  refine ⟨⟨t.pairwise_lineStarts, rfl, fun n => ?_⟩, fun offset => ?_, strictMono_position t⟩
  · -- Nothing behind the front of the table is 0.
    have hpos : ∀ m ∈ t.lineStarts.tail, 0 < m := (List.pairwise_cons.mp t.pairwise_lineStarts).1
    have hmem : n ∈ t.lineStarts.tail ↔ 0 < n ∧ n ∈ t.lineStarts := by
      refine ⟨fun h => ⟨hpos n h, List.mem_of_mem_tail h⟩, ?_⟩
      rintro ⟨hn, h⟩
      exact (List.mem_cons.mp h).resolve_left (by omega)
    rw [hmem, Text.mem_lineStarts, Text.isLineStart_iff_breaksAt]
    constructor
    · rintro ⟨hn, h⟩
      exact h.resolve_left (by omega)
    · rintro ⟨start, hb⟩
      exact ⟨Nat.zero_lt_of_lt hb.lt, .inr ⟨start, hb⟩⟩
  · obtain ⟨r, hr, hlast, heq⟩ := exists_position_eq t offset
    have hline := (locates_position t offset).line_eq_ncard
    have hbefore := hlast.le
    intro p
    refine ⟨hline, ?_, t.lineStarts[r], ?_, ?_⟩
    · simp only [p, heq]
      omega
    · simp [p, heq, hr]
    · simp only [p, heq]
      omega

/-- A pair breaks the line once, behind its line feed. -/
example : (List.range 6).map (LineTable.ofText "a\r\n\rb").position
    = [⟨1, 1⟩, ⟨1, 2⟩, ⟨1, 3⟩, ⟨2, 1⟩, ⟨3, 1⟩, ⟨3, 2⟩] := by
  decide +kernel

end LineTable

end LatexMarkdown
