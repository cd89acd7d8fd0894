import LatexMarkdown.Proofs.Running
import Mathlib.Data.List.TakeWhile
/-!
  Token lists inside longer ones.

  A `Frame` puts tokens before and behind a token list and moves its offsets; `Frame.cursor` is a
  cursor seen through it.  Behind the list stands nothing, or a tail that no argument ends in
  (`Inert`): line breaks, or a marker that nothing closes.  As long as a cursor has tokens of its
  own before it, what is current and what comes next is the same through the frame.
-/
namespace LatexMarkdown

namespace Token

theorem kind_of_isBlankLine {t : Token} (h : t.isBlankLine = true) : t.kind = .newLine := by
  simp only [isBlankLine, Bool.and_eq_true, beq_iff_eq] at h
  exact h.1

theorem isSpacing_of_isBlankLine {t : Token} (h : t.isBlankLine = true) : t.isSpacing = true := by
  simp [isSpacing, kind_of_isBlankLine h]

end Token

namespace Parse

/-! ## Tails -/

/-- Tokens at which looking ahead stops: line breaks up to a blank line, or up to an environment of
raw text. -/
inductive Inert : List Token → Prop
  | nil : Inert []
  | blankLine {t : Token} {rest : List Token} (h : t.isBlankLine = true) : Inert (t :: rest)
  | newLine {t : Token} {rest : List Token} (h : t.kind = .newLine) (hrest : Inert rest) :
      Inert (t :: rest)
  | raw {t : Token} {rest : List Token} (h : t.kind = .envBegin)
      (hrest : ∀ u ∈ rest, u.kind = .rawText) : Inert (t :: rest)

/-- Tokens that close nothing, in which everything open stays open to the end. -/
inductive Barren : List Token → Prop
  | nil : Barren []
  | newLine {t : Token} {rest : List Token} (h : t.kind = .newLine) (hrest : Barren rest) :
      Barren (t :: rest)
  | raw {t : Token} {rest : List Token} (h : t.kind = .envBegin)
      (hname : t.text ∈ rawEnvironments) (hrest : ∀ u ∈ rest, u.kind = .rawText) :
      Barren (t :: rest)

theorem Barren.inert {l : List Token} (h : Barren l) : Inert l := by
  induction h with
  | nil => exact .nil
  | newLine h _ ih => exact .newLine h ih
  | raw h _ hrest => exact .raw h hrest

theorem Barren.kind {l : List Token} (h : Barren l) :
    ∀ t ∈ l, t.kind = .newLine ∨ t.kind = .envBegin ∨ t.kind = .rawText := by
  induction h with
  | nil => simp
  | newLine h _ ih =>
    intro t ht
    rcases List.mem_cons.mp ht with rfl | ht
    · exact .inl h
    · exact ih t ht
  | raw h _ hrest =>
    intro t ht
    rcases List.mem_cons.mp ht with rfl | ht
    · exact .inr (.inl h)
    · exact .inr (.inr (hrest t ht))

/-- The first token of a tail. -/
theorem Inert.kind_head {t : Token} {rest : List Token} (h : Inert (t :: rest)) :
    t.kind = .newLine ∨ t.kind = .envBegin := by
  cases h with
  | blankLine h => exact .inl (Token.kind_of_isBlankLine h)
  | newLine h _ => exact .inl h
  | raw h _ => exact .inr h

/-! ## Frames -/

/-- What a token list is put into: how far its offsets and the places of its tokens move, the tokens
before it, nearest first, and the tokens behind it with the last one, when the list does not keep
its own end.  Blocks and diagnostics from before are kept, the last one first. -/
structure Frame where
  shift : Nat := 0
  index : Nat := 0
  passed : List Token := []
  ending? : Option (List Token × Token) := none
  blocks : List Block := []
  diagnostics : List Diagnostic := []

namespace Frame

variable (φ : Frame)

/-- An offset moved. -/
def offset (o : Nat) : Nat := o + φ.shift

/-- A token moved, with the marks that reading goes by. -/
def token (t : Token) : Token :=
  { kind := t.kind
    flags := { blankLine := t.flags.blankLine, escaped := t.flags.escaped,
               malformed := t.flags.malformed }
    start := φ.offset t.start
    stop := φ.offset t.stop
    text := t.text }

/-- The tokens behind. -/
def tail : List Token := (φ.ending?.map Prod.fst).getD []

/-- A cursor seen in the longer list. -/
def cursor (c : Cursor) : Cursor :=
  { passed := c.passed.map φ.token ++ φ.passed
    ahead := c.ahead.map φ.token ++ φ.tail
    final := (φ.ending?.map Prod.snd).getD (φ.token c.final)
    index := c.index + φ.index }

/-- A marker moved. -/
def marker (m : Marker) : Marker := ⟨φ.token m.token, m.index + φ.index⟩

/-- A failure moved. -/
def failure (e : Failure) : Failure := ⟨e.flaw, φ.marker e.marker⟩

/-- What a frame has to be: the last token before it stops where its offsets begin, and the tokens
behind it are inert. -/
structure Lawful : Prop where
  lastStop_eq : (φ.passed.head?.map (·.stop)).getD 0 = φ.shift
  inert : Inert φ.tail
  final_eq : ∀ tail last, φ.ending? = some (tail, last) → last.kind = .endOfFile

/-- The current token belongs to the list itself. -/
def Sees (c : Cursor) : Prop := φ.ending? = none ∨ c.ahead ≠ []

/-- A run with the second context through the frame reads what a run with the first context reads
without. -/
structure Carries (ctx ctx' : Context) (c : Cursor) : Prop where
  terminated : c.Terminated
  inside : ∀ t ∈ c.ahead, t.kind ≠ .endOfFile
  spelling : ∀ t ∈ c.ahead, ctx'.source.spelling (φ.token t) = ctx.source.spelling t
  offset_eq : ctx'.settings.headingLevelOffset = ctx.settings.headingLevelOffset

/-! ## Tokens -/

@[simp] theorem kind_token (t : Token) : (φ.token t).kind = t.kind := rfl

@[simp] theorem text_token (t : Token) : (φ.token t).text = t.text := rfl

@[simp] theorem start_token (t : Token) : (φ.token t).start = φ.offset t.start := rfl

@[simp] theorem stop_token (t : Token) : (φ.token t).stop = φ.offset t.stop := rfl

@[simp] theorem malformed_token (t : Token) :
    (φ.token t).flags.malformed = t.flags.malformed := rfl

@[simp] theorem escaped_token (t : Token) : (φ.token t).flags.escaped = t.flags.escaped := rfl

@[simp] theorem isBlankLine_token (t : Token) : (φ.token t).isBlankLine = t.isBlankLine := rfl

@[simp] theorem isSpacing_token (t : Token) : (φ.token t).isSpacing = t.isSpacing := rfl

@[simp] theorem isArgumentSpacing_token (t : Token) :
    (φ.token t).isArgumentSpacing = t.isArgumentSpacing := rfl

@[simp] theorem text_marker (m : Marker) : (φ.marker m).text = m.text := rfl

@[simp] theorem kind_marker (m : Marker) : (φ.marker m).token.kind = m.token.kind := rfl

@[simp] theorem token_marker (m : Marker) : (φ.marker m).token = φ.token m.token := rfl

@[simp] theorem missingArgument_marker (m : Marker) :
    missingArgument (φ.marker m) = missingArgument m := rfl

@[simp] theorem opensDisplay_token (t : Token) : opensDisplay (φ.token t) = opensDisplay t := rfl

theorem max_offset (a b : Nat) : max (φ.offset a) (φ.offset b) = φ.offset (max a b) := by
  unfold offset
  omega

variable {φ} {ctx ctx' : Context} {c d : Cursor}

/-- Without tokens behind it the list keeps its own end. -/
theorem tail_of_none (h : φ.ending? = none) : φ.tail = [] := by
  rw [tail, h]
  rfl

/-! ## Cursors -/

theorem current_cursor (h : φ.Sees c) : (φ.cursor c).current = φ.token c.current := by
  cases ha : c.ahead with
  | cons t rest => simp [Cursor.current, cursor, ha]
  | nil =>
    have hnone : φ.ending? = none := h.resolve_right (by simp [ha])
    simp [Cursor.current, cursor, ha, tail, hnone]

theorem marker_cursor (h : φ.Sees c) : (φ.cursor c).marker = φ.marker c.marker := by
  rw [Cursor.marker, current_cursor h]
  rfl

theorem Sees.of_kind (hc : c.Terminated) (h : c.current.kind ≠ .endOfFile) : φ.Sees c :=
  .inr (Cursor.ahead_ne_nil hc h)

/-- What does not begin a tail is current through the frame just when it is current without. -/
theorem kind_current (hφ : φ.Lawful) (hc : c.Terminated) {kind : TokenKind}
    (he : kind ≠ .endOfFile) (hl : kind ≠ .newLine) (hb : kind ≠ .envBegin) :
    (φ.cursor c).current.kind = kind ↔ c.current.kind = kind := by
  by_cases hs : φ.Sees c
  · rw [current_cursor hs, kind_token]
  · obtain ⟨hending, hnil⟩ : φ.ending? ≠ none ∧ c.ahead = [] := by
      simpa [Sees, not_or] using hs
    obtain ⟨⟨tail, last⟩, hending⟩ := Option.ne_none_iff_exists'.mp hending
    have hcurrent : c.current.kind = .endOfFile := by
      rw [Cursor.current_of_ahead_nil hnil]
      exact hc
    have hinert := hφ.inert
    have hlast := hφ.final_eq tail last hending
    have hframed : (φ.cursor c).current.kind ≠ kind := by
      cases tail with
      | nil => simpa [Cursor.current, cursor, hnil, Frame.tail, hending, hlast] using he.symm
      | cons t rest =>
        rw [Frame.tail, hending] at hinert
        have ht : (φ.cursor c).current = t := by
          simp [Cursor.current, cursor, hnil, Frame.tail, hending]
        rw [ht]
        rcases hinert.kind_head with hk | hk <;> rw [hk]
        · exact hl.symm
        · exact hb.symm
    rw [hcurrent]
    exact ⟨fun h => absurd h hframed, fun h => absurd h he.symm⟩

theorem advance_cursor (h : φ.Sees c) : (φ.cursor c).advance = φ.cursor c.advance := by
  unfold Cursor.advance
  rw [current_cursor h, kind_token]
  split
  · rfl
  · cases ha : c.ahead with
    | cons t rest => simp [cursor, ha, Nat.add_right_comm]
    | nil =>
      have hnone : φ.ending? = none := h.resolve_right (by simp [ha])
      simp [cursor, ha, tail_of_none hnone, Nat.add_right_comm]

theorem advanceBy_cursor {n : Nat} (h : φ.ending? = none ∨ n ≤ c.ahead.length) :
    (φ.cursor c).advanceBy n = φ.cursor (c.advanceBy n) := by
  induction n generalizing c with
  | zero => rfl
  | succ n ih =>
    have hsees : φ.Sees c := by
      refine h.imp_right fun hlen hnil => ?_
      rw [hnil, List.length_nil] at hlen
      omega
    have hlen : φ.ending? = none ∨ n ≤ c.advance.ahead.length := by
      refine h.imp_right fun hlen => ?_
      unfold Cursor.advance
      split
      · omega
      · rw [List.length_tail]
        omega
    rw [Cursor.advanceBy_succ, Cursor.advanceBy_succ, advance_cursor hsees, ih hlen]

theorem lastStop_cursor (hφ : φ.Lawful) (c : Cursor) :
    (φ.cursor c).lastStop = φ.offset c.lastStop := by
  cases hp : c.passed with
  | cons t rest => simp [Cursor.lastStop, cursor, hp]
  | nil =>
    have hstop := hφ.lastStop_eq
    simpa [Cursor.lastStop, cursor, hp, offset] using hstop

/-- Counting goes on into the tail only past all tokens of the list. -/
theorem countWhile_cursor {p : Token → Bool} (hp : ∀ t, p (φ.token t) = p t) (c : Cursor) :
    (φ.cursor c).countWhile p
      = if c.countWhile p = c.ahead.length then c.ahead.length + (φ.tail.takeWhile p).length
        else c.countWhile p := by
  have hmap : (c.ahead.map φ.token).takeWhile p = (c.ahead.takeWhile p).map φ.token := by
    rw [List.takeWhile_map]
    have hcomp : p ∘ φ.token = p := funext hp
    rw [hcomp]
  have hframed : (φ.cursor c).countWhile p = ((c.ahead.map φ.token ++ φ.tail).takeWhile p).length :=
    rfl
  have hlen : c.countWhile p = ((c.ahead.map φ.token).takeWhile p).length := by
    rw [hmap, List.length_map]
    rfl
  rw [hframed, List.takeWhile_append, ← hlen, List.length_map]
  by_cases h : c.countWhile p = c.ahead.length
  · rw [if_pos h, if_pos h, List.length_append, List.length_map]
  · rw [if_neg h, if_neg h, hlen]

theorem countWhile_le (p : Token → Bool) (c : Cursor) : c.countWhile p ≤ c.ahead.length :=
  (List.takeWhile_sublist p).length_le

/-- Spacing is skipped alike when something of the list comes after it. -/
theorem skipWhile_cursor {p : Token → Bool} (hp : ∀ t, p (φ.token t) = p t)
    (hend : ∀ t, p t = true → t.kind ≠ .endOfFile)
    (h : φ.Sees (c.advanceBy (c.countWhile p))) :
    (φ.cursor c).advanceBy ((φ.cursor c).countWhile p)
      = φ.cursor (c.advanceBy (c.countWhile p)) := by
  have hcount : (φ.cursor c).countWhile p = c.countWhile p := by
    rw [countWhile_cursor hp]
    split
    · next hall =>
      rcases h with hnone | hne
      · rw [hall, tail_of_none hnone]
        rfl
      · -- All was skipped, so nothing of the list comes after it.
        rw [Cursor.ahead_skipWhile hend] at hne
        have htake : c.ahead.takeWhile p = c.ahead :=
          (List.takeWhile_prefix p).eq_of_length hall
        exact absurd (List.dropWhile_eq_nil_iff.mpr (List.takeWhile_eq_self_iff.mp htake)) hne
    · rfl
  rw [hcount, advanceBy_cursor (.inr (countWhile_le p c))]

/-! ## What is carried on -/

theorem Carries.of_reaches (h : φ.Carries ctx ctx' c) (hd : c.Reaches d) :
    φ.Carries ctx ctx' d :=
  ⟨hd.terminated h.terminated,
    fun t ht => h.inside t (hd.ahead_suffix.subset ht),
    fun t ht => h.spelling t (hd.ahead_suffix.subset ht), h.offset_eq⟩

theorem Lawful.terminated (hφ : φ.Lawful) (hc : c.Terminated) : (φ.cursor c).Terminated := by
  cases he : φ.ending? with
  | none => simpa [Cursor.Terminated, cursor, he] using hc
  | some ending => simpa [Cursor.Terminated, cursor, he] using hφ.final_eq ending.1 ending.2 he

end Frame

end Parse

end LatexMarkdown
