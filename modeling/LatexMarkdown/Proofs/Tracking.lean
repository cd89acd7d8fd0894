import LatexMarkdown.Proofs.Lines
import LatexMarkdown.Token.Scanner
import Mathlib.Data.List.Induction
/-!
  The scanner keeps track of its line.

  A scanner counts lines and columns as it goes, and the table of a text looks them up.  `Place.On`
  says of a place what the text says of its offset: the last line start at or before it and how many
  there are.  Moving keeps that (`Place.On.moveTo`), also where it goes past its target because the
  target is inside a line break, so every operation of the scanner does.  Main statement:
  `position_afterCalls`, after any calls the line and column are those of the table.
-/
namespace LatexMarkdown

namespace Text

variable {t : Text} {n : Nat}

theorem isLineStart_zero (t : Text) : t.IsLineStart 0 := .inl rfl

theorem isLineStart_succ :
    t.IsLineStart (n + 1) ↔ t[n]? = some 0x0A ∨ t[n]? = some 0x0D ∧ t[n + 1]? ≠ some 0x0A := by
  simp [IsLineStart]

/-- What a text says behind a place that is not its end. -/
theorem of_drop_eq_cons {u : CodeUnit} {rest : Text} (h : t.drop n = u :: rest) :
    n < t.length ∧ t[n]? = some u ∧ t.drop (n + 1) = rest := by
  have hlt : n < t.length := by
    have hlen := congrArg List.length h
    simp only [List.length_drop, List.length_cons] at hlen
    omega
  rw [List.drop_eq_getElem_cons hlt] at h
  obtain ⟨hu, hrest⟩ := List.cons.inj h
  exact ⟨hlt, by rw [List.getElem?_eq_getElem hlt, hu], hrest⟩

/-- Behind a line break of one unit a line begins. -/
theorem isLineStart_of_lone {u : CodeUnit} {rest : Text} (hdrop : t.drop n = u :: rest)
    (hbreak : u.isLineBreak = true) (hlone : ∀ more, u = 0x0D → rest = 0x0A :: more → False) :
    t.IsLineStart (n + 1) := by
  obtain ⟨-, hu, hrest⟩ := of_drop_eq_cons hdrop
  rw [isLineStart_succ, hu]
  simp only [CodeUnit.isLineBreak, Bool.or_eq_true, beq_iff_eq] at hbreak
  rcases hbreak with rfl | rfl
  · exact .inl rfl
  · refine .inr ⟨rfl, fun hfeed => ?_⟩
    have hhead : rest.head? = some 0x0A := by rw [← hrest, List.head?_drop, hfeed]
    obtain ⟨more, hmore⟩ := List.head?_eq_some_iff.mp hhead
    exact hlone more rfl hmore

/-- A line begins behind a carriage return with its line feed, and none between the two. -/
theorem isLineStart_of_pair {rest : Text} (hdrop : t.drop n = 0x0D :: 0x0A :: rest) :
    ¬ t.IsLineStart (n + 1) ∧ t.IsLineStart (n + 2) := by
  obtain ⟨-, hreturn, hdrop'⟩ := of_drop_eq_cons hdrop
  obtain ⟨-, hfeed, -⟩ := of_drop_eq_cons hdrop'
  constructor
  · rw [isLineStart_succ, hreturn, hfeed]
    simp
  · exact isLineStart_succ.mpr (.inl hfeed)

/-- An offset has one line and one column. -/
theorem Locates.unique {offset : Nat} {p q : Position} (hp : t.Locates offset p)
    (hq : t.Locates offset q) : p = q := by
  obtain ⟨hpline, a, ha, hale, halast, hpcolumn⟩ := hp
  obtain ⟨hqline, b, hb, hble, hblast, hqcolumn⟩ := hq
  -- Each of the two line starts is the last one.
  have hab : a = b := by
    rcases Nat.lt_trichotomy a b with hlt | heq | hgt
    · exact absurd hb (halast b hlt hble)
    · exact heq
    · exact absurd ha (hblast a hgt hale)
  subst hab
  cases p
  cases q
  exact Position.mk.injEq .. ▸ ⟨hpline.trans hqline.symm, hpcolumn.trans hqcolumn.symm⟩

end Text

/-! ## Places -/

namespace Place

variable {source : Text} {p : Place}

/-- A place of a text whose line and column are those of its offset. -/
structure On (source : Text) (p : Place) : Prop where
  le_length : p.offset ≤ source.length
  isLineStart : source.IsLineStart p.lineStart
  lineStart_le : p.lineStart ≤ p.offset
  last : ∀ n, p.lineStart < n → n ≤ p.offset → ¬ source.IsLineStart n
  line : p.line = ((List.range (p.offset + 1)).filter (source.IsLineStart ·)).length
  column : p.column = p.offset - p.lineStart + 1

namespace On

/-- Every text begins with a line. -/
theorem front (source : Text) : On source {} where
  le_length := Nat.zero_le _
  isLineStart := source.isLineStart_zero
  lineStart_le := Nat.le_refl 0
  last n hlt hle := absurd hle (Nat.not_le_of_lt hlt)
  line := by
    have hfront := decide_eq_true (source.isLineStart_zero)
    simp [List.range_succ, hfront]
  column := rfl

/-- Past a unit behind which no line begins. -/
theorem next (h : p.On source) (hlt : p.offset < source.length)
    (hstart : ¬ source.IsLineStart (p.offset + 1)) : p.next.On source where
  le_length := hlt
  isLineStart := h.isLineStart
  lineStart_le := Nat.le_succ_of_le h.lineStart_le
  last n hgt hle := by
    rcases Nat.lt_or_eq_of_le hle with hle' | rfl
    · exact h.last n hgt (Nat.le_of_lt_succ hle')
    · exact hstart
  line := by
    show p.line = ((List.range (p.offset + 1 + 1)).filter (source.IsLineStart ·)).length
    rw [List.range_succ, List.filter_append, List.length_append, ← h.line]
    simp [hstart]
  column := by
    have hle := h.lineStart_le
    have hcolumn := h.column
    show p.column + 1 = p.offset + 1 - p.lineStart + 1
    omega

/-- Past a unit behind which a line begins. -/
theorem nextLine (h : p.On source) (hlt : p.offset < source.length)
    (hstart : source.IsLineStart (p.offset + 1)) : (p.nextLine 1).On source where
  le_length := hlt
  isLineStart := hstart
  lineStart_le := Nat.le_refl _
  last n hgt hle := absurd hle (Nat.not_le_of_lt hgt)
  line := by
    show p.line + 1 = ((List.range (p.offset + 1 + 1)).filter (source.IsLineStart ·)).length
    rw [List.range_succ, List.filter_append, List.length_append, ← h.line]
    simp [hstart]
  column := by
    show 1 = p.offset + 1 - (p.offset + 1) + 1
    omega

/-- Past a carriage return with its line feed. -/
theorem nextLine_two (h : p.On source) {rest : Text}
    (hdrop : source.drop p.offset = 0x0D :: 0x0A :: rest) : (p.nextLine 2).On source := by
  obtain ⟨hlt, -, hdrop'⟩ := Text.of_drop_eq_cons hdrop
  obtain ⟨hlt', -, -⟩ := Text.of_drop_eq_cons hdrop'
  obtain ⟨hbetween, hbehind⟩ := Text.isLineStart_of_pair hdrop
  -- Two units further is one unit further, and one more that ends the line.
  exact (h.next hlt hbetween).nextLine hlt' hbehind

/-- Moving keeps track of the line, and what is left is the text from the place that was reached. -/
theorem moveTo (h : p.On source) {rest : Text} (hrest : source.drop p.offset = rest)
    (target : Nat) :
    (p.moveTo target rest).1.On source ∧
      source.drop (p.moveTo target rest).1.offset = (p.moveTo target rest).2 := by
  -- The walk stops at its target or at the end; else it passes a pair, a lone break or another unit.
  fun_induction Place.moveTo target p rest with
  | case1 p rest _ => exact ⟨h, hrest⟩
  | case2 p rest _ ih =>
    -- The pair is passed as one, also where the target lies inside it.
    obtain ⟨-, -, hfeed⟩ := Text.of_drop_eq_cons hrest
    obtain ⟨-, -, hbehind⟩ := Text.of_drop_eq_cons hfeed
    exact ih (h.nextLine_two hrest) hbehind
  | case3 p u rest _ _ => exact ⟨h, hrest⟩
  | case4 p u rest hlone _ hbreak ih =>
    obtain ⟨hlt, -, hbehind⟩ := Text.of_drop_eq_cons hrest
    exact ih (h.nextLine hlt (Text.isLineStart_of_lone hrest hbreak hlone)) hbehind
  | case5 p u rest _ _ hbreak ih =>
    obtain ⟨hlt, hu, hbehind⟩ := Text.of_drop_eq_cons hrest
    have hstart : ¬ source.IsLineStart (p.offset + 1) := by
      rw [Text.isLineStart_succ, hu]
      rintro (hfeed | ⟨hreturn, -⟩)
      · exact hbreak (Option.some.inj hfeed ▸ rfl)
      · exact hbreak (Option.some.inj hreturn ▸ rfl)
    exact ih (h.next hlt hstart) hbehind
  | case6 p => exact ⟨h, hrest⟩

/-- A line that begins at the place begins there and nowhere before. -/
theorem lineStart_eq (h : p.On source) (hstart : source.IsLineStart p.offset) :
    p.lineStart = p.offset := by
  rcases Nat.lt_or_eq_of_le h.lineStart_le with hlt | heq
  · exact absurd hstart (h.last p.offset hlt (Nat.le_refl _))
  · exact heq

/-- The table of the text finds the line and column of the place. -/
theorem position_eq (h : p.On source) :
    (LineTable.ofText source).position p.offset = ⟨p.line, p.column⟩ := by
  have hlocates : source.Locates p.offset ⟨p.line, p.column⟩ :=
    ⟨h.line, p.lineStart, h.isLineStart, h.lineStart_le, h.last, h.column⟩
  exact (LineTable.locates_position source p.offset).unique hlocates

end On

end Place

/-! ## Scanners -/

namespace Scanner

variable {s t : Scanner}

/-- A scanner that stands on a place of its text, with the text from there on before it. -/
structure Tracks (s : Scanner) : Prop where
  place : s.place.On s.source
  rest : s.source.drop s.place.offset = s.rest

namespace Tracks

theorem ofText (source : Text) (keep : Bool) : (Scanner.ofText source keep).Tracks :=
  ⟨.front source, rfl⟩

theorem emit (h : s.Tracks) (x : Lexeme) : (s.emit x).Tracks := by
  obtain ⟨hplace, hrest⟩ := h.place.moveTo h.rest (s.place.offset + x.length)
  exact ⟨hplace, hrest⟩

theorem skipComment (h : s.Tracks) (n : Nat) : (s.skipComment n).Tracks := by
  obtain ⟨hplace, hrest⟩ :=
    h.place.moveTo h.rest (s.place.offset + n + Text.breakLength (s.rest.drop n))
  exact ⟨hplace, hrest⟩

/-- A scan in any mode, over any comments that it drops. -/
theorem scan (h : s.Tracks) : s.scan.Tracks := by
  -- Along the comments that are dropped, down to the lexeme that becomes the token.
  fun_induction Scanner.scan s with
  | case1 s _ => exact h.emit _
  | case2 s u rest _ x _ ih => exact ih (h.skipComment x.length)
  | case3 s u rest _ x _ => exact h.emit x

theorem of_rollback {offset : Int} (h : s.rollback offset = .ok t) : t.Tracks := by
  unfold Scanner.rollback at h
  split at h
  · cases h
  · -- Nothing of the scanner is kept but its text: the walk starts at the front again.
    obtain ⟨hplace, hrest⟩ := (Place.On.front s.source).moveTo rfl offset.toNat
    cases h
    exact ⟨hplace, hrest⟩

end Tracks

/-! ## Calls -/

/-- What a caller asks of a scanner. -/
inductive Call
  | init (text : Text) (keepComments : Bool)
  | scan
  | rollback (offset : Number)

/-- The scanner after a call and the error that the call ended with, if it did.  A scanner that
cannot be rolled back is left as it was. -/
def call (s : Scanner) : Call → Scanner × Option RollbackError
  | .init text keep => (.ofText text keep, none)
  | .scan => (s.scan, none)
  | .rollback offset =>
    match s.rollbackBetween offset with
    | .ok t => (t, none)
    | .error e => (s, some e)

/-- A new scanner after calls, the first one first. -/
def afterCalls (calls : List Call) : Scanner := calls.foldl (fun s c => (s.call c).1) {}

/-- The text and the comment policy of a scanner. -/
def given (s : Scanner) : Text × Bool := (s.source, s.keepComments)

/-- The text and the policy that are given after a call, when they were `before`. -/
def Call.given (before : Text × Bool) : Call → Text × Bool
  | .init text keep => (text, keep)
  | .scan | .rollback _ => before

/-- The text and the policy that were given last; a new scanner has the empty text. -/
def givenLast (calls : List Call) : Text × Bool := calls.foldl Call.given ([], false)

/-- A rollback restarts at a unit of the text, or it is refused. -/
theorem call_rollback (s : Scanner) (offset : Number) :
    (∃ next r, s.rollback next = .ok r ∧
      s.call (.rollback offset) = ({ r with restart := offset }, none)) ∨
    s.call (.rollback offset) = (s, some ⟨offset⟩) := by
  simp only [call, rollbackBetween]
  split
  · next t hok =>
    split at hok
    · next r hmap =>
      obtain ⟨next, -, hr⟩ := Option.map_eq_some_iff.mp hmap
      cases hok
      exact .inl ⟨next, r, hr, rfl⟩
    · cases hok
  · next e herror =>
    split at herror
    · cases herror
    · cases herror
      exact .inr rfl

theorem Tracks.call (h : s.Tracks) (c : Call) : (s.call c).1.Tracks := by
  cases c with
  | init text keep => exact .ofText text keep
  | scan => exact h.scan
  | rollback offset =>
    rcases s.call_rollback offset with ⟨next, r, hok, heq⟩ | heq
    · obtain ⟨hplace, hrest⟩ := Tracks.of_rollback hok
      rw [heq]
      exact ⟨hplace, hrest⟩
    · rw [heq]
      exact h

/-- A scan goes on in the same text. -/
theorem given_scan (s : Scanner) : s.scan.given = s.given := by
  fun_induction Scanner.scan s with
  | case1 s _ => rfl
  | case2 s u rest _ x _ ih => exact ih
  | case3 s u rest _ x _ => rfl

/-- A rollback stays in the same text. -/
theorem given_of_rollback {offset : Int} (h : s.rollback offset = .ok t) : t.given = s.given := by
  unfold rollback at h
  split at h
  · cases h
  · cases h
    rfl

/-- The text of a scanner changes with `init` only. -/
theorem given_call (s : Scanner) (c : Call) : (s.call c).1.given = c.given s.given := by
  cases c with
  | init text keep => rfl
  | scan => exact s.given_scan
  | rollback offset =>
    rcases s.call_rollback offset with ⟨next, r, hok, heq⟩ | heq
    · have hgiven : ({ r with restart := offset } : Scanner).given = s.given :=
        given_of_rollback (t := r) hok
      rw [heq]
      exact hgiven
    · rw [heq]
      rfl

theorem afterCalls_concat (calls : List Call) (c : Call) :
    afterCalls (calls ++ [c]) = ((afterCalls calls).call c).1 := by
  rw [afterCalls, List.foldl_append]
  rfl

/-- A scanner has the text and the policy that it was given last. -/
theorem given_afterCalls (calls : List Call) : (afterCalls calls).given = givenLast calls := by
  induction calls using List.reverseRecOn with
  | nil => rfl
  | append_singleton calls c ih =>
    rw [afterCalls_concat, given_call, ih, givenLast, givenLast, List.foldl_append]
    rfl

/-- Every scanner that calls lead to keeps track of its place. -/
theorem tracks_afterCalls (calls : List Call) : (afterCalls calls).Tracks := by
  -- On the number of calls: `Tracks` is what the last one keeps.
  induction calls using List.reverseRecOn with
  | nil => exact .ofText [] false
  | append_singleton calls c ih =>
    rw [afterCalls_concat]
    exact ih.call c

/-- After any calls on one scanner, the place that it has reached lies in the text, its line and
column are the ones that the line table of the text gives its offset, and a rollback that is refused
leaves the scanner as it is. -/
theorem position_afterCalls (calls : List Call) :
    let s := afterCalls calls
    let text := (givenLast calls).1
    s.place.offset ≤ text.length ∧
      (LineTable.ofText text).position s.place.offset = ⟨s.place.line, s.place.column⟩ ∧
      ∀ offset e, (s.call (.rollback offset)).2 = some e →
        e.offset = offset ∧ (s.call (.rollback offset)).1 = s := by
  intro s text
  have htracks : s.Tracks := tracks_afterCalls calls
  have htext : text = s.source := congrArg Prod.fst (given_afterCalls calls).symm
  rw [htext]
  refine ⟨htracks.place.le_length, htracks.place.position_eq, ?_⟩
  intro offset e herror
  rcases s.call_rollback offset with ⟨next, r, -, heq⟩ | heq
  · rw [heq] at herror
    cases herror
  · rw [heq] at herror ⊢
    cases herror
    exact ⟨rfl, rfl⟩

/-- A rollback into a line break goes behind it, and one behind the text is refused. -/
theorem position_afterCalls_sample :
    let text : Text := "a\r\nb"
    let s := afterCalls [.init text false, .scan, .scan, .rollback 2]
    s.place.offset = 3 ∧ (LineTable.ofText text).position s.place.offset = ⟨2, 1⟩ ∧
      (s.call (.rollback 5)).2 = some ⟨5⟩ ∧ (s.call (.rollback 5)).1 = s := by
  intro text s
  obtain ⟨-, hposition, hrefused⟩ :=
    position_afterCalls [.init text false, .scan, .scan, .rollback 2]
  have hoffset : s.place.offset = 3 := by decide +kernel
  have hcounted : (⟨s.place.line, s.place.column⟩ : Position) = ⟨2, 1⟩ := by decide +kernel
  have herror : (s.call (.rollback 5)).2 = some ⟨5⟩ := by decide +kernel
  exact ⟨hoffset, hposition.trans hcounted, herror, (hrefused 5 ⟨5⟩ herror).2⟩

end Scanner

end LatexMarkdown
