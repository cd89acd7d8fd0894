import LatexMarkdown.Proofs.Embedding.Ending
import LatexMarkdown.Proofs.Embedding.Lexing
/-!
  The tokens of a text with a blank line and more text behind it.

  They begin like the tokens of the text alone; then come line breaks, the last of them blank, and
  the tokens of what follows (`Joined`).  Only a text that ends in the body of a raw environment
  takes the blank line into it (`EndsRaw`).  Where a text stands changes its tokens by the offset
  alone (`Text.tokensFrom_add`).
-/
namespace LatexMarkdown

/-! ## Lists of tokens -/

/-- Nothing, or one line break. -/
def IsLineEnd (l : List Token) : Prop := l = [] ∨ ∃ t, l = [t] ∧ t.kind = .newLine

theorem IsLineEnd.map_token {l : List Token} (h : IsLineEnd l) (φ : Parse.Frame) :
    IsLineEnd (l.map φ.token) := by
  rcases h with rfl | ⟨t, rfl, hk⟩
  · exact .inl rfl
  · exact .inr ⟨φ.token t, rfl, hk⟩

theorem IsLineEnd.barren {l : List Token} (h : IsLineEnd l) : Parse.Barren l := by
  rcases h with rfl | ⟨t, rfl, hk⟩
  · exact .nil
  · exact .newLine hk .nil

/-- A line break is blank or may stand before a blank line. -/
theorem IsLineEnd.split {l : List Token} (h : IsLineEnd l) :
    ∃ gap rest, l = gap ++ rest ∧ Parse.IsGap gap ∧ Parse.IsBreak rest ∧
      ∀ t ∈ rest, t.isSpacing = true := by
  rcases h with rfl | ⟨t, rfl, hk⟩
  · exact ⟨[], [], rfl, .inl rfl, .inl rfl, by simp⟩
  · cases hb : t.isBlankLine with
    | false => exact ⟨[t], [], rfl, .inr ⟨t, rfl, hk, hb⟩, .inl rfl, by simp⟩
    | true =>
      refine ⟨[], [t], rfl, .inl rfl, .inr ⟨t, [], rfl, hb⟩, ?_⟩
      intro u hu
      rw [List.mem_singleton.mp hu]
      simp [Token.isSpacing, hk]

theorem isLineEnd_toToken {x : Lexeme} (h : x.kind = .newLine) (m : LineMark) (offset : Nat) :
    IsLineEnd [x.toToken m offset] :=
  .inr ⟨_, rfl, h⟩

/-- The tokens end in the body of a raw environment. -/
def EndsRaw (l : List Token) : Prop :=
  ∃ own b body last, l = own ++ (b :: body ++ [last]) ∧ b.kind = .envBegin ∧
    b.text ∈ rawEnvironments ∧ ∀ t ∈ body, t.kind = .rawText

theorem EndsRaw.cons {l : List Token} (h : EndsRaw l) (t : Token) : EndsRaw (t :: l) := by
  obtain ⟨own, b, body, last, rfl, hrest⟩ := h
  exact ⟨t :: own, b, body, last, rfl, hrest⟩

/-- Two lists that begin alike.  Then the first has a line break at most and its end, the second a
line break at most, a blank line that ends at an offset, and more. -/
inductive Joined (stop : Nat) (more : List Token) : List Token → List Token → Prop
  | intro (own : List Token) {ending breaks : List Token} {last blank : Token}
      (hending : IsLineEnd ending) (hbreaks : IsLineEnd breaks)
      (hblank : blank.isBlankLine = true) (hstop : blank.stop = stop) :
      Joined stop more (own ++ (ending ++ [last])) (own ++ (breaks ++ blank :: more))

theorem Joined.cons {stop : Nat} {more l l' : List Token} (h : Joined stop more l l')
    (t : Token) : Joined stop more (t :: l) (t :: l') := by
  obtain ⟨own, hending, hbreaks, hblank, hstop⟩ := h
  exact .intro (t :: own) hending hbreaks hblank hstop

namespace Text

variable {keep : Bool} {mode : Mode} {m : LineMark} {offset : Nat} {t : Text}

/-! ## Line feeds -/

/-- The lexeme of a line feed. -/
def lineFeed : Lexeme := { kind := .newLine, length := 1, text := [0x0A] }

theorem tokensFrom_lineFeed (keep : Bool) (m : LineMark) (offset : Nat) (e : Text) :
    tokensFrom keep .normal m offset (0x0A :: e)
      = lineFeed.toToken m offset :: tokensFrom keep .normal ⟨false, true⟩ (offset + 1) e :=
  tokensFrom_of_covers (Lexeme.covers_lineFeed e) (by decide) keep m offset

theorem isBlankLine_lineFeed (h : m.hasContent = false) (offset : Nat) :
    (lineFeed.toToken m offset).isBlankLine = true := by
  simp [lineFeed, Lexeme.toToken, Token.isBlankLine, h]

/-- On a line without content a line feed ends a blank line. -/
theorem joined_of_blank (keep : Bool) (m : LineMark) (offset : Nat) (last : Token)
    {ending breaks : List Token} (hending : IsLineEnd ending) (hbreaks : IsLineEnd breaks)
    (h : m.hasContent = false) (e : Text) :
    Joined (offset + 1) (tokensFrom keep .normal ⟨false, true⟩ (offset + 1) e)
      (ending ++ [last]) (breaks ++ tokensFrom keep .normal m offset (0x0A :: e)) := by
  rw [tokensFrom_lineFeed]
  exact .intro [] hending hbreaks (isBlankLine_lineFeed h offset) rfl

/-! ## The end of a text -/

/-- A carriage return at the end makes one break with the line feed behind it. -/
theorem joined_carriageReturn (keep : Bool) (m : LineMark) (offset : Nat) (e : Text) :
    Joined (offset + 3) (tokensFrom keep .normal ⟨false, true⟩ (offset + 3) e)
      (tokensFrom keep .normal m offset [0x0D])
      (tokensFrom keep .normal m offset (0x0D :: 0x0A :: 0x0A :: e)) := by
  have hread : Lexeme.read .normal 0x0D [] = { kind := .newLine, length := 1, text := [0x0D] } :=
    rfl
  have hread' : Lexeme.read .normal 0x0D (0x0A :: 0x0A :: e)
      = { kind := .newLine, length := 2, text := [0x0D, 0x0A] } := rfl
  rw [tokensFrom, tokensFrom]
  simp only [hread, hread']
  have hending := isLineEnd_toToken (x := { kind := .newLine, length := 1, text := [0x0D] }) rfl m
    offset
  have hbreaks := isLineEnd_toToken (x := { kind := .newLine, length := 2, text := [0x0D, 0x0A] }) rfl
    m offset
  simpa [tokensFrom, LineMark.after] using
    joined_of_blank keep ⟨false, true⟩ (offset + 2) (.atEnd ⟨false, true⟩ (offset + 1)) hending hbreaks
      rfl e

theorem breakLength_of_end (h : t = [] ∨ t = [0x0D]) (e : Text) :
    breakLength t = t.length ∧ breakLength (t ++ 0x0A :: 0x0A :: e) = t.length + 1 := by
  rcases h with rfl | rfl
  · exact ⟨rfl, by rw [List.nil_append, breakLength_cons_cons]; rfl⟩
  · exact ⟨rfl, rfl⟩

/-- The body of a raw environment that does not end is one token. -/
theorem tokensFrom_rawText (keep : Bool) (m : LineMark) (offset : Nat) {name : Text}
    (h : endMarkerOffset? name t = none) :
    ∃ body last, tokensFrom keep (.rawText name) m offset t = body ++ [last] ∧
      ∀ t ∈ body, t.kind = .rawText := by
  cases t with
  | nil => exact ⟨[], _, by rw [tokensFrom]; rfl, by simp⟩
  | cons u rest =>
    have hread : Lexeme.read (.rawText name) u rest
        = Lexeme.spelled .rawText (u :: rest) (rest.length + 1) { unterminated := true } := by
      simp only [Lexeme.read, Lexeme.ofRawBody, h]
    rw [tokensFrom]
    simp only [hread, Lexeme.spelled]
    rw [if_neg (by simp), List.drop_of_length_le (by simp), tokensFrom]
    exact ⟨[_], _, rfl, by simp [Lexeme.toToken]⟩

/-- Unless it ends in the body of a raw environment, the tokens of a text and those of the text with
a blank line and more behind it begin alike. -/
theorem joined_tokensFrom (e : Text) (h : mode.Agrees t)
    (hraw : ∀ name, mode = .rawText name →
      name ∈ rawEnvironments ∧ (endMarkerOffset? name t).isSome = true) :
    EndsRaw (tokensFrom keep mode m offset t) ∨
      Joined (offset + t.length + 2)
        (tokensFrom keep .normal ⟨false, true⟩ (offset + t.length + 2) e)
        (tokensFrom keep mode m offset t)
        (tokensFrom keep mode m offset (t ++ 0x0A :: 0x0A :: e)) := by
  fun_induction tokensFrom keep mode m offset t with
  | case1 mode m offset =>
    cases mode with
    | normal =>
      right
      rw [List.nil_append, tokensFrom_lineFeed]
      exact joined_of_blank _ _ _ _ (.inl rfl) (isLineEnd_toToken (x := lineFeed) rfl m offset) rfl e
    | rawText name => exact absurd (hraw name rfl).2 (by simp [endMarkerOffset?])
    | verbatim d => exact absurd h.1 (by simp)
  | case2 mode m offset u rest x hc n ih =>
    have hfits : x.Fits (u :: rest) := Lexeme.fits_read h
    have hcr : ¬ (mode = .normal ∧ u :: rest = [0x0D]) := by
      rintro ⟨rfl, heq⟩
      obtain ⟨rfl, rfl⟩ := List.cons.inj heq
      exact absurd hc.1 (by decide)
    have hread := Lexeme.read_append (.of_agrees h hraw hcr) (0x0A :: e)
    have hdrop : (u :: (rest ++ 0x0A :: 0x0A :: e)).drop x.length
        = (u :: rest).drop x.length ++ 0x0A :: 0x0A :: e := by
      rw [← List.cons_append, List.drop_append_of_le_length hfits.length_le]
    rw [List.cons_append, tokensFrom.eq_def keep mode m offset (u :: (rest ++ _))]
    simp only [hread]
    rw [if_pos hc]
    have hle := hfits.length_le
    generalize ht : (u :: rest).drop x.length = t at *
    have hlen : x.length + t.length = (u :: rest).length := by
      rw [← ht, List.length_drop]
      omega
    have hrest : ∀ k, (u :: rest).drop (x.length + k) = t.drop k := by
      intro k
      rw [← List.drop_drop, ht]
    have hrest' : ∀ k, (u :: (rest ++ 0x0A :: 0x0A :: e)).drop (x.length + k)
        = (t ++ 0x0A :: 0x0A :: e).drop k := by
      intro k
      rw [← List.drop_drop, hdrop]
    have hn : n = x.length + breakLength t := by rw [← ht]
    rw [hdrop]
    show _ ∨ Joined _ _ _ (tokensFrom keep .normal _ (offset + (x.length + _)) (List.drop (x.length + _) _))
    rw [hrest', hn, hrest]
    rw [hn, hrest] at ih
    by_cases hend : t = [] ∨ t = [0x0D]
    · -- The comment takes the first line feed along, so a blank line follows.
      obtain ⟨hbreak, hbreak'⟩ := breakLength_of_end hend e
      have hfeed : (t ++ 0x0A :: 0x0A :: e).drop (t.length + 1) = 0x0A :: e := by
        rw [← List.drop_drop, List.drop_append_length]
        rfl
      have hoffset : offset + (x.length + (t.length + 1)) = offset + (u :: rest).length + 1 := by
        omega
      right
      rw [hbreak', hfeed, hoffset, hbreak, List.drop_length, tokensFrom]
      have hnone : IsLineEnd [] := .inl rfl
      exact joined_of_blank _ _ _ _ hnone hnone rfl e
    · obtain ⟨hne, hcr⟩ := not_or.mp hend
      have hbreak := breakLength_append hne hcr (0x0A :: e)
      have hoffset : offset + (x.length + breakLength t) + (t.drop (breakLength t)).length
          = offset + (u :: rest).length := by
        have hle := breakLength_le t
        rw [List.length_drop]
        omega
      rw [hbreak, List.drop_append_of_le_length (breakLength_le t)]
      rw [hoffset] at ih
      exact ih trivial fun name hname => by cases hname
  | case3 mode m offset u rest x hc ih =>
    by_cases hcr : mode = .normal ∧ u :: rest = [0x0D]
    · obtain ⟨rfl, hcr⟩ := hcr
      obtain ⟨rfl, rfl⟩ := List.cons.inj hcr
      right
      have hjoined := joined_carriageReturn keep m offset e
      rw [tokensFrom.eq_def keep .normal m offset [0x0D]] at hjoined
      exact hjoined
    · have hfits : x.Fits (u :: rest) := Lexeme.fits_read h
      have hread := Lexeme.read_append (.of_agrees h hraw hcr) (0x0A :: e)
      have hdrop : (u :: (rest ++ 0x0A :: 0x0A :: e)).drop x.length
          = (u :: rest).drop x.length ++ 0x0A :: 0x0A :: e := by
        rw [← List.cons_append, List.drop_append_of_le_length hfits.length_le]
      have hlen : offset + x.length + ((u :: rest).drop x.length).length
          = offset + (u :: rest).length := by
        have hle := hfits.length_le
        rw [List.length_drop]
        omega
      rw [List.cons_append, tokensFrom.eq_def keep mode m offset (u :: (rest ++ _))]
      simp only [hread]
      rw [if_neg hc, hdrop]
      by_cases hopen : ∃ name, x.mode = .rawText name ∧
          endMarkerOffset? name ((u :: rest).drop x.length) = none
      · -- The body of a raw environment begins here and does not end.
        obtain ⟨name, hname, hnone⟩ := hopen
        obtain ⟨hkind, rfl, hmem⟩ := Lexeme.begins_of_mode hname
        obtain ⟨body, last, heq, hbody⟩ := tokensFrom_rawText keep (m.after x)
          (offset + x.length) hnone
        left
        rw [hname, heq]
        exact ⟨[], _, body, last, rfl, hkind, hmem, hbody⟩
      · have hmode : ∀ name, x.mode = .rawText name → name ∈ rawEnvironments ∧
            (endMarkerOffset? name ((u :: rest).drop x.length)).isSome = true := by
          intro name hname
          obtain ⟨-, -, hmem⟩ := Lexeme.begins_of_mode hname
          refine ⟨hmem, Option.ne_none_iff_isSome.mp fun hnone => hopen ⟨name, hname, hnone⟩⟩
        rcases ih hfits.agrees hmode with hends | hjoined
        · exact .inl (hends.cons _)
        · rw [hlen] at hjoined
          exact .inr (hjoined.cons _)

/-- The tokens of a text that can be read stand before a blank line as they do by themselves. -/
theorem joined_tokens (keep : Bool) (t e : Text) :
    EndsRaw (t.tokens keep) ∨
      Joined (t.length + 2) (tokensFrom keep .normal ⟨false, true⟩ (t.length + 2) e)
        (t.tokens keep) (Text.tokens (t ++ 0x0A :: 0x0A :: e) keep) := by
  have hjoined : EndsRaw (tokensFrom keep .normal {} 0 t) ∨ Joined (0 + t.length + 2)
      (tokensFrom keep .normal ⟨false, true⟩ (0 + t.length + 2) e) (tokensFrom keep .normal {} 0 t)
      (tokensFrom keep .normal {} 0 (t ++ 0x0A :: 0x0A :: e)) :=
    joined_tokensFrom e trivial fun _ h => by cases h
  rwa [← tokens_eq_tokensFrom, ← tokens_eq_tokensFrom, Nat.zero_add] at hjoined

/-! ## Where a text stands -/

/-- A text further on has its tokens further on, with the marks that reading goes by. -/
theorem tokensFrom_shift (φ : Parse.Frame) (m' : LineMark) (hm : m'.hasContent = m.hasContent) :
    (tokensFrom keep mode m' (offset + φ.shift) t).map ({} : Parse.Frame).token
      = (tokensFrom keep mode m offset t).map φ.token := by
  have htoken : ∀ (x : Lexeme) (m m' : LineMark) (offset : Nat), m'.hasContent = m.hasContent →
      ({} : Parse.Frame).token (x.toToken m' (offset + φ.shift)) = φ.token (x.toToken m offset) := by
    intro x m m' offset hm
    simp only [Parse.Frame.token, Parse.Frame.offset, Lexeme.toToken, hm, Nat.add_zero]
    rw [Nat.add_right_comm]
  fun_induction tokensFrom keep mode m offset t generalizing m' with
  | case1 mode m offset =>
    rw [tokensFrom, List.map_singleton, List.map_singleton, Token.atEnd, Token.atEnd,
      htoken _ _ _ _ hm]
  | case2 mode m offset u rest x hc n ih =>
    rw [tokensFrom]
    simp only [show Lexeme.read mode u rest = x from rfl]
    rw [if_pos hc, Nat.add_right_comm]
    exact ih (m'.afterComment _) (by simp only [LineMark.afterComment, hm])
  | case3 mode m offset u rest x hc ih =>
    rw [tokensFrom]
    simp only [show Lexeme.read mode u rest = x from rfl]
    rw [if_neg hc, List.map_cons, List.map_cons, htoken x m m' offset hm, Nat.add_right_comm,
      ih (m'.after x) (by simp only [LineMark.after, hm])]

/-- No token goes past the end of the text. -/
theorem stop_le (h : mode.Agrees t) :
    ∀ tok ∈ tokensFrom keep mode m offset t, tok.stop ≤ offset + t.length := by
  fun_induction tokensFrom keep mode m offset t with
  | case1 mode m offset =>
    intro tok htok
    rw [List.mem_singleton.mp htok]
    exact Nat.le_refl _
  | case2 mode m offset u rest x hc n ih =>
    intro tok htok
    have hfits : x.Fits (u :: rest) := Lexeme.fits_read h
    have hle := hfits.length_le
    have hbreak := breakLength_le ((u :: rest).drop x.length)
    have hstop := ih trivial tok htok
    rw [List.length_drop] at hbreak hstop
    have hn : n = x.length + breakLength ((u :: rest).drop x.length) := rfl
    omega
  | case3 mode m offset u rest x hc ih =>
    intro tok htok
    have hfits : x.Fits (u :: rest) := Lexeme.fits_read h
    have hle := hfits.length_le
    rcases List.mem_cons.mp htok with rfl | htok
    · exact Nat.add_le_add_left hle offset
    · have hstop := ih hfits.agrees tok htok
      rw [List.length_drop] at hstop
      omega

/-- Only the last token ends the text. -/
theorem kind_ne_endOfFile :
    ∀ tok ∈ (tokensFrom keep mode m offset t).dropLast, tok.kind ≠ .endOfFile := by
  fun_induction tokensFrom keep mode m offset t with
  | case1 mode m offset => simp
  | case2 mode m offset u rest x hc n ih => exact ih
  | case3 mode m offset u rest x hc ih =>
    rw [List.dropLast_cons_of_ne_nil (tokensFrom_ne_nil _ _ _ _ _)]
    intro tok htok
    rcases List.mem_cons.mp htok with rfl | htok
    · exact Lexeme.kind_read_ne_endOfFile mode u rest
    · exact ih tok htok

/-- Only the last token of a text ends it, and none goes past its end. -/
theorem tokens_spec {keep : Bool} {l : List Token} {last : Token} (h : t.tokens keep = l ++ [last]) :
    last.kind = .endOfFile ∧ ∀ tok ∈ l, tok.kind ≠ .endOfFile ∧ tok.stop ≤ t.length := by
  obtain ⟨tok, htok, hk⟩ := (Scanner.ofText t keep).exists_getLast?_tokens
  have hlast : last = tok := by
    change (t.tokens keep).getLast? = some tok at htok
    rwa [h, List.getLast?_concat, Option.some.injEq] at htok
  have hkind : ∀ tok ∈ (tokensFrom keep .normal {} 0 t).dropLast, tok.kind ≠ .endOfFile :=
    kind_ne_endOfFile
  have hstop : ∀ tok ∈ tokensFrom keep .normal {} 0 t, tok.stop ≤ 0 + t.length := stop_le trivial
  rw [← tokens_eq_tokensFrom, h, List.dropLast_concat] at hkind
  rw [← tokens_eq_tokensFrom, h, Nat.zero_add] at hstop
  exact ⟨hlast ▸ hk, fun tok hmem => ⟨hkind tok hmem, hstop tok (List.mem_append_left _ hmem)⟩⟩

theorem exists_tokens_eq (keep : Bool) (t : Text) : ∃ l last, t.tokens keep = l ++ [last] := by
  have hne : t.tokens keep ≠ [] := by
    rw [tokens_eq_tokensFrom]
    exact tokensFrom_ne_nil _ _ _ _ _
  exact ⟨_, _, (List.dropLast_concat_getLast hne).symm⟩

theorem kind_ahead_cursor (keep : Bool) (t : Text) :
    ∀ tok ∈ (t.cursor keep).ahead, tok.kind ≠ .endOfFile := by
  have hkind : ∀ tok ∈ (tokensFrom keep .normal {} 0 t).dropLast, tok.kind ≠ .endOfFile :=
    kind_ne_endOfFile
  rwa [← tokens_eq_tokensFrom] at hkind

/-- The tokens of a text behind a line break and further on. -/
theorem tokens_shift (keep : Bool) (t : Text) (φ : Parse.Frame) :
    (tokensFrom keep .normal ⟨false, true⟩ φ.shift t).map ({} : Parse.Frame).token
      = (t.tokens keep).map φ.token := by
  rw [tokens_eq_tokensFrom, ← Nat.zero_add φ.shift]
  exact tokensFrom_shift φ ⟨false, true⟩ rfl

end Text

end LatexMarkdown
