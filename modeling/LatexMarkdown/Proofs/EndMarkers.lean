import LatexMarkdown.Proofs.RawBodies
import LatexMarkdown.Proofs.Tiling
/-!
  Where the body of a raw environment ends.

  `Text.BeginsEnd` says what an end marker looks like, and `Text.EndsAt` that a place in a text
  is the first at which the marker of a name stands.  The search of the scanner finds just that
  place (`endMarkerOffset?_eq_some_iff`, `endMarkerOffset?_eq_none_iff`).

  The search goes by spaces and tabs, and the marker is then read like any other, which takes
  more units for space; so it is read as the marker that was found.  `Text.Delimits` says what
  the tokens behind a begin marker have to be.

  Main statement: `Text.delimits_of_tokens`, behind the begin marker of a raw environment they are
  that.
-/
namespace LatexMarkdown

namespace Text

/-- An end marker of the environment stands at the front of a text: the command, spaces or tabs, and
the name in braces. -/
def BeginsEnd (t name : Text) : Prop :=
  ∃ space rest, t = 0x5C :: (ofString "end" ++ (space ++ 0x7B :: (name ++ 0x7D :: rest))) ∧
    ∀ u ∈ space, CodeUnit.isTabSpace u = true

/-- The first end marker of the environment from `start` on begins at `place`. -/
structure EndsAt (source name : Text) (start place : Nat) : Prop where
  le : start ≤ place
  here : BeginsEnd (source.drop place) name
  before : ∀ n, start ≤ n → n < place → ¬ BeginsEnd (source.drop n) name

/-- No end marker of the environment begins at `start` or behind it. -/
def NeverEnds (source name : Text) (start : Nat) : Prop :=
  ∀ n, start ≤ n → ¬ BeginsEnd (source.drop n) name

theorem not_beginsEnd_nil (name : Text) : ¬ BeginsEnd [] name := by
  rintro ⟨_, _, heq, _⟩
  cases heq

end Text

/-- The scanner looks for end markers and nothing else. -/
theorem startsWithEndMarker_iff {name t : Text} :
    startsWithEndMarker name t = true ↔ t.BeginsEnd name := by
  refine ⟨eq_of_startsWithEndMarker, ?_⟩
  rintro ⟨space, rest, rfl, hspace⟩
  have hdrop : (space ++ 0x7B :: (name ++ 0x7D :: rest)).dropWhile CodeUnit.isTabSpace
      = (0x7B :: name) ++ 0x7D :: rest := by
    rw [List.dropWhile_append_of_pos hspace, List.dropWhile_cons_of_neg (by decide),
      List.cons_append]
  show ((0x7B :: name) ++ [0x7D]).isPrefixOf
    ((space ++ 0x7B :: (name ++ 0x7D :: rest)).dropWhile CodeUnit.isTabSpace) = true
  rw [hdrop]
  exact List.isPrefixOf_iff_prefix.mpr ⟨rest, by simp⟩

instance (t name : Text) : Decidable (t.BeginsEnd name) :=
  decidable_of_iff _ startsWithEndMarker_iff

/-- The search finds the first place at which an end marker begins. -/
theorem endMarkerOffset?_eq_some_iff {name t : Text} {n : Nat} :
    endMarkerOffset? name t = some n ↔
      Text.BeginsEnd (t.drop n) name ∧ ∀ i < n, ¬ Text.BeginsEnd (t.drop i) name := by
  induction t generalizing n with
  | nil => simp [endMarkerOffset?, Text.not_beginsEnd_nil]
  | cons u t ih =>
    rw [endMarkerOffset?]
    split
    · next hstarts =>
      -- The marker stands right here, and there is no place before it.
      have here := startsWithEndMarker_iff.mp hstarts
      constructor
      · intro h
        cases Option.some.inj h
        exact ⟨here, fun i hi => absurd hi (Nat.not_lt_zero i)⟩
      · intro h
        cases n with
        | zero => rfl
        | succ n => exact absurd here (h.2 0 (Nat.succ_pos n))
    · next hstarts =>
      have hnot := startsWithEndMarker_iff.not.mp hstarts
      cases n with
      | zero => simp [hnot]
      | succ n =>
        have hplace : (endMarkerOffset? name t).map (· + 1) = some (n + 1) ↔
            endMarkerOffset? name t = some n := by simp
        rw [hplace, ih]
        refine and_congr_right fun _ => ⟨fun hbefore i hi => ?_, fun hbefore i hi => ?_⟩
        · cases i with
          | zero => exact hnot
          | succ i => exact hbefore i (Nat.lt_of_succ_lt_succ hi)
        · exact hbefore (i + 1) (Nat.succ_lt_succ hi)

/-- The search finds nothing where no end marker begins. -/
theorem endMarkerOffset?_eq_none_iff {name t : Text} :
    endMarkerOffset? name t = none ↔ ∀ i, ¬ Text.BeginsEnd (t.drop i) name := by
  induction t with
  | nil => simp [endMarkerOffset?, Text.not_beginsEnd_nil]
  | cons u t ih =>
    rw [endMarkerOffset?]
    split
    · next hstarts =>
      have here := startsWithEndMarker_iff.mp hstarts
      exact ⟨fun h => absurd h (by simp), fun h => absurd here (h 0)⟩
    · next hstarts =>
      rw [Option.map_eq_none_iff, ih]
      refine ⟨fun h i => ?_, fun h i => h (i + 1)⟩
      cases i with
      | zero => exact startsWithEndMarker_iff.not.mp hstarts
      | succ i => exact h i

namespace Text

variable {source name t : Text} {offset n : Nat}

/-- A place that the search finds in what is left of a text. -/
theorem EndsAt.of_offset (hdrop : source.drop offset = t) (h : endMarkerOffset? name t = some n) :
    source.EndsAt name offset (offset + n) := by
  obtain ⟨here, hbefore⟩ := endMarkerOffset?_eq_some_iff.mp h
  refine ⟨Nat.le_add_right _ _, ?_, fun i hle hlt => ?_⟩
  · rwa [← List.drop_drop, hdrop]
  · have hi : i = offset + (i - offset) := by omega
    rw [hi, ← List.drop_drop, hdrop]
    exact hbefore (i - offset) (by omega)

theorem NeverEnds.of_offset (hdrop : source.drop offset = t)
    (h : endMarkerOffset? name t = none) : source.NeverEnds name offset := by
  intro i hle
  have hi : i = offset + (i - offset) := by omega
  rw [hi, ← List.drop_drop, hdrop]
  exact endMarkerOffset?_eq_none_iff.mp h (i - offset)

/-- There is one first end marker. -/
theorem EndsAt.unique {start place place' : Nat} (h : source.EndsAt name start place)
    (h' : source.EndsAt name start place') : place = place' := by
  rcases Nat.lt_trichotomy place place' with hlt | heq | hgt
  · exact absurd h.here (h'.before place h.le hlt)
  · exact heq
  · exact absurd h'.here (h.before place' h'.le hgt)

/-- From a place on there is an end marker or there is none. -/
theorem exists_endsAt_or_neverEnds (source name : Text) (start : Nat) :
    (∃ place, source.EndsAt name start place) ∨ source.NeverEnds name start := by
  cases h : endMarkerOffset? name (source.drop start) with
  | none => exact .inr (.of_offset rfl h)
  | some n => exact .inl ⟨start + n, .of_offset rfl h⟩

/-! ## The tokens of a body -/

/-- A token from one place to another, spelled as it is. -/
structure SpelledAt (source : Text) (t : Token) (start stop : Nat) : Prop where
  start_eq : t.start = start
  stop_eq : t.stop = stop
  text_eq : t.text = source.slice start stop

/-- The first of the tokens ends the environment, with a marker that begins at `place`. -/
def EndsWith (name : Text) (place : Nat) (tokens : List Token) : Prop :=
  ∃ t ∈ tokens.head?, t.kind = .envEnd ∧ t.text = name ∧ t.start = place

/-- The tokens from `start` on are those of the body of the environment: raw text up to the first
end marker, none when the marker stands right there, and the marker; or, without a marker, raw text
that is marked as unterminated, none at the end of the text, and nothing more. -/
structure Delimits (source name : Text) (start : Nat) (tokens : List Token) : Prop where
  empty : source.EndsAt name start start → EndsWith name start tokens
  closed : ∀ place, source.EndsAt name start place → start < place →
    ∃ body rest, tokens = body :: rest ∧ body.kind = .rawText ∧ body.flags.unterminated = false ∧
      source.SpelledAt body start place ∧ EndsWith name place rest
  unclosed : source.NeverEnds name start → start < source.length →
    ∃ body last, tokens = [body, last] ∧ body.kind = .rawText ∧ body.flags.unterminated = true ∧
      source.SpelledAt body start source.length ∧ last.kind = .endOfFile
  atEnd : source.NeverEnds name start → source.length ≤ start →
    ∃ last, tokens = [last] ∧ last.kind = .endOfFile

/-- An end marker comes first among the tokens, where it begins. -/
theorem endsWith_tokensFrom (hname : name ∈ rawEnvironments)
    (h : startsWithEndMarker name t = true) (keep : Bool) (m : LineMark) (offset : Nat) :
    EndsWith name offset (t.tokensFrom keep .normal m offset) := by
  cases t with
  | nil => exact absurd h (by simp [startsWithEndMarker])
  | cons u rest =>
    obtain ⟨hk, htext⟩ := Lexeme.ofMarkup_of_startsWithEndMarker hname h
    have hcomment : ¬ ((Lexeme.read .normal u rest).kind = .comment ∧ keep = false) := by
      simp [Lexeme.read, hk]
    rw [tokensFrom]
    simp only [if_neg hcomment]
    exact ⟨_, rfl, hk, htext, rfl⟩

/-- Behind the begin marker of a raw environment the tokens are those of its body. -/
theorem delimits_tokensFrom (hname : name ∈ rawEnvironments) (hdrop : source.drop offset = t)
    (hle : offset ≤ source.length) (keep : Bool) (m : LineMark) :
    source.Delimits name offset (t.tokensFrom keep (.rawText name) m offset) := by
  have hlength : offset + t.length = source.length := by
    rw [← hdrop, List.length_drop]
    omega
  cases t with
  | nil =>
    have hend : offset = source.length := by simpa using hlength
    have hnever : ∀ place, ¬ source.EndsAt name offset place := by
      intro place hends
      have hnil : source.drop place = [] := List.drop_eq_nil_of_le (hend ▸ hends.le)
      exact not_beginsEnd_nil name (hnil ▸ hends.here)
    rw [tokensFrom]
    exact ⟨fun h => absurd h (hnever _), fun place h => absurd h (hnever place),
      fun _ hlt => absurd hend (Nat.ne_of_lt hlt), fun _ _ => ⟨_, rfl, rfl⟩⟩
  | cons u rest =>
    have hlt : offset < source.length := by
      rw [← hlength, List.length_cons]
      omega
    cases hn : endMarkerOffset? name (u :: rest) with
    | none =>
      -- The body runs to the end of the text.
      have hnever : source.NeverEnds name offset := .of_offset hdrop hn
      have hnot : ∀ place, ¬ source.EndsAt name offset place :=
        fun place hends => hnever place hends.le hends.here
      have hread : Lexeme.read (.rawText name) u rest
          = Lexeme.spelled .rawText (u :: rest) (rest.length + 1) { unterminated := true } := by
        simp only [Lexeme.read, Lexeme.ofRawBody, hn]
      have hstop : offset + (rest.length + 1) = source.length := by
        rw [← hlength, List.length_cons]
      rw [tokensFrom]
      simp only [hread, Lexeme.spelled, reduceCtorEq, false_and, if_false]
      refine ⟨fun h => absurd h (hnot _), fun place h => absurd h (hnot place), fun _ _ => ?_,
        fun _ hend => absurd hend (Nat.not_le_of_lt hlt)⟩
      rw [List.drop_of_length_le (by simp), tokensFrom]
      refine ⟨_, _, rfl, rfl, rfl, ⟨rfl, hstop, ?_⟩, rfl⟩
      rw [slice, hdrop, ← hstop, Nat.add_sub_cancel_left]
      rfl
    | some n =>
      have hends : source.EndsAt name offset (offset + n) := .of_offset hdrop hn
      have hmarker := Lexeme.startsWithEndMarker_of_offset hn
      have hnot : ¬ source.NeverEnds name offset := fun h => h _ hends.le hends.here
      cases n with
      | zero =>
        -- The body is empty, so the end marker is read in its place.
        have hread : Lexeme.read (.rawText name) u rest = Lexeme.read .normal u rest := by
          simp only [Lexeme.read, Lexeme.ofRawBody, hn]
        have hfirst := endsWith_tokensFrom hname hmarker keep m offset
        rw [List.drop_zero, tokensFrom] at hfirst
        rw [tokensFrom, hread]
        exact ⟨fun _ => hfirst,
          fun place h hgt => absurd (h.unique hends) (Nat.ne_of_gt hgt),
          fun h => absurd h hnot, fun h => absurd h hnot⟩
      | succ n =>
        -- The body stops where the end marker begins, and the marker is read in normal mode.
        have hread : Lexeme.read (.rawText name) u rest
            = Lexeme.spelled .rawText (u :: rest) (n + 1) := by
          simp only [Lexeme.read, Lexeme.ofRawBody, hn]
        rw [tokensFrom]
        simp only [hread, Lexeme.spelled, reduceCtorEq, false_and, if_false]
        refine ⟨fun h => absurd (h.unique hends) (by omega), fun place h _ => ?_,
          fun h => absurd h hnot, fun h => absurd h hnot⟩
        obtain rfl := h.unique hends
        refine ⟨_, _, rfl, rfl, rfl, ⟨rfl, rfl, ?_⟩, endsWith_tokensFrom hname hmarker _ _ _⟩
        rw [slice, hdrop, Nat.add_sub_cancel_left]
        rfl

/-- Behind every begin marker of a raw environment stand the tokens of its body. -/
def Delimited (source : Text) : List Token → Prop
  | [] => True
  | t :: rest =>
    (t.kind = .envBegin → t.text ∈ rawEnvironments → source.Delimits t.text t.stop rest) ∧
      Delimited source rest

theorem Delimited.of_append {before rest : List Token} (h : Delimited source (before ++ rest)) :
    Delimited source rest := by
  induction before with
  | nil => exact h
  | cons t before ih => exact ih h.2

theorem delimited_tokensFrom {keep : Bool} {mode : Mode} (hagrees : mode.Agrees t)
    (hdrop : source.drop offset = t) (hle : offset ≤ source.length) (m : LineMark) :
    Delimited source (t.tokensFrom keep mode m offset) := by
  fun_induction tokensFrom keep mode m offset t with
  | case1 mode m offset =>
    exact ⟨fun hk => absurd hk (by simp [Token.atEnd, Lexeme.toToken]), trivial⟩
  | case2 mode m offset u rest x hc n ih =>
    have hfits : x.Fits (u :: rest) := Lexeme.fits_read hagrees
    have hbreak := breakLength_le ((u :: rest).drop x.length)
    have hlength := congrArg List.length hdrop
    have hlong := hfits.length_le
    rw [List.length_drop] at hbreak hlength
    exact ih trivial (by rw [← hdrop, List.drop_drop]) (by omega)
  | case3 mode m offset u rest x hc ih =>
    have hfits : x.Fits (u :: rest) := Lexeme.fits_read hagrees
    have hlength := congrArg List.length hdrop
    have hlong := hfits.length_le
    rw [List.length_drop] at hlength
    have hnext : source.drop (offset + x.length) = (u :: rest).drop x.length := by
      rw [← hdrop, List.drop_drop]
    refine ⟨fun hk hraw => ?_, ih hfits.agrees hnext (by omega)⟩
    have hmode : x.mode = .rawText x.text := Lexeme.mode_of_kind_read hk hraw
    rw [hmode]
    exact delimits_tokensFrom hraw hnext (by omega) keep _

/-- Behind a begin marker of a raw environment among the tokens of a text stand the tokens of its
body. -/
theorem delimits_of_tokens {keep : Bool} {before after : List Token} {begun : Token}
    (h : source.tokens keep = before ++ begun :: after) (hk : begun.kind = .envBegin)
    (hraw : begun.text ∈ rawEnvironments) : source.Delimits begun.text begun.stop after := by
  have hagrees : Mode.normal.Agrees source := trivial
  have hdelimited : Delimited source (before ++ begun :: after) := by
    rw [← h, tokens_eq_tokensFrom]
    exact delimited_tokensFrom hagrees rfl (Nat.zero_le _) {}
  exact hdelimited.of_append.1 hk hraw

end Text

end LatexMarkdown
