import LatexMarkdown.Proofs.Embedding.Lexing
import LatexMarkdown.Proofs.Running
/-!
  Raw text among the tokens.

  The body of a raw environment is one token at most, and then the environment ends, or the text
  does (`EndsBody`).  The argument of a `\verb` ends with its line.

  Main statements:

  * `Text.framed_tokens`: behind every begin marker of a raw environment stands its body;
  * `Text.verbsEnd_tokens`: raw text right behind a command is on one line.
-/
namespace LatexMarkdown

theorem CodeUnit.isLineSpace_of_isTabSpace {u : CodeUnit} (h : u.isTabSpace = true) :
    u.isLineSpace = true := by
  simp only [isTabSpace, Bool.or_eq_true, beq_iff_eq] at h
  rcases h with rfl | rfl <;> decide

/-- An end marker is its command, spaces or tabs, and the name in braces. -/
theorem eq_of_startsWithEndMarker {name t : Text} (h : startsWithEndMarker name t = true) :
    ∃ space rest, t = 0x5C :: (Text.ofString "end" ++ (space ++ 0x7B :: (name ++ 0x7D :: rest))) ∧
      ∀ u ∈ space, CodeUnit.isTabSpace u = true := by
  unfold startsWithEndMarker at h
  split at h
  · next after =>
    obtain ⟨rest, hrest⟩ := List.isPrefixOf_iff_prefix.mp h
    refine ⟨after.takeWhile CodeUnit.isTabSpace, rest, ?_, fun u => List.mem_takeWhile_imp⟩
    have hafter : 0x7B :: (name ++ 0x7D :: rest) = after.dropWhile CodeUnit.isTabSpace := by
      rw [← hrest]
      simp
    rw [hafter, List.takeWhile_append_dropWhile]
    rfl
  · exact absurd h (by simp)

namespace Lexeme

/-- Names of raw environments are names of environments. -/
theorem isEnvironmentName_of_mem_rawEnvironments :
    ∀ name ∈ rawEnvironments, name ≠ [] ∧ ∀ u ∈ name, CodeUnit.isEnvironmentName u = true := by
  decide

/-- An end marker is read as one. -/
theorem ofMarkup_of_startsWithEndMarker {name rest : Text} {u : CodeUnit}
    (hname : name ∈ rawEnvironments) (h : startsWithEndMarker name (u :: rest) = true) :
    (ofMarkup u rest).kind = .envEnd ∧ (ofMarkup u rest).text = name := by
  obtain ⟨space, tail, heq, hspace⟩ := eq_of_startsWithEndMarker h
  obtain ⟨rfl, rfl⟩ := List.cons.inj heq
  obtain ⟨hne, hunits⟩ := isEnvironmentName_of_mem_rawEnvironments name hname
  generalize hafter : space ++ 0x7B :: (name ++ 0x7D :: tail) = after
  have hletters : ∀ v ∈ Text.ofString "end", CodeUnit.isLetter v = true := by decide
  -- Neither a space nor the brace goes on with the name of the command.
  have hhead : ∀ v ∈ after.head?, CodeUnit.isLetter v = false ∧ v ≠ 0x2A := by
    intro v hv
    rw [← hafter] at hv
    cases space with
    | nil =>
      cases Option.some.inj hv
      decide
    | cons w space =>
      obtain rfl : w = v := Option.some.inj hv
      have hw := hspace w List.mem_cons_self
      simp only [CodeUnit.isTabSpace, Bool.or_eq_true, beq_iff_eq] at hw
      rcases hw with rfl | rfl <;> decide
  have henv : environmentName? after = some (name, space.length + name.length + 2) :=
    environmentName?_eq_some_iff.mpr ⟨space, tail, hafter.symm, rfl, hne,
      fun v hv => CodeUnit.isLineSpace_of_isTabSpace (hspace v hv), hunits⟩
  have hbegin : Text.ofString "end" ≠ Text.ofString "begin" := by decide
  have hescape : ofMarkup 0x5C (Text.ofString "end" ++ after)
      = ofCommand (Text.ofString "end" ++ after) :=
    ofEscape_of_letters (by decide) hletters
  rw [hescape]
  simp only [ofCommand, commandName_append hletters hhead, List.drop_append_length, ofMarker?,
    hbegin, if_false, if_true, henv, Option.map_some, and_self]

/-- Behind the begin marker of a raw environment its body is read raw. -/
theorem mode_of_kind_read {mode : Mode} {u : CodeUnit} {rest : Text}
    (hk : (read mode u rest).kind = .envBegin) (hraw : (read mode u rest).text ∈ rawEnvironments) :
    (read mode u rest).mode = .rawText (read mode u rest).text := by
  obtain heq | ⟨hk', -⟩ := read_cases mode u rest
  · rw [heq] at hk hraw ⊢
    obtain ⟨t, heq⟩ | ⟨-, hne⟩ := ofMarkup_cases u rest
    · rw [heq] at hk hraw ⊢
      obtain ⟨-, hmode⟩ | ⟨hk', -⟩ | ⟨hk', -⟩ := ofCommand_cases t
      · rw [hmode, if_pos hraw]
      · rw [hk'] at hk
        cases hk
      · rw [hk'] at hk
        cases hk
    · exact absurd hk hne
  · rw [hk'] at hk
    cases hk

theorem kind_ofMarkup_ne_rawText (u : CodeUnit) (rest : Text) :
    (ofMarkup u rest).kind ≠ .rawText := by
  unfold ofMarkup
  cases Category.ofUnit u
  case escape =>
    intro h
    exact absurd (h ▸ kind_ofEscape_mem rest) (by decide)
  case mathShift => simp only; split <;> simp [spelled]
  all_goals simp [spelled]

/-- The text of a `\verb` argument ends with its line. -/
theorem isLineBreak_of_mem_ofVerbatim {d u : CodeUnit} {rest : Text}
    (h : u ∈ (ofVerbatim d rest).text) : u.isLineBreak = false := by
  have hbody : (ofVerbatim d rest).text = rest.takeWhile fun c => c != d && !c.isLineBreak := by
    simp only [ofVerbatim]
    split <;> rfl
  rw [hbody] at h
  have hu := List.mem_takeWhile_imp h
  simp only [Bool.and_eq_true, Bool.not_eq_true'] at hu
  exact hu.2

end Lexeme

/-! ## Tokens -/

/-- The first of the tokens ends the environment of a name, or the text. -/
def EndsBody (name : Text) (l : List Token) : Prop :=
  ∃ t rest, l = t :: rest ∧ (t.kind = .endOfFile ∨ (t.kind = .envEnd ∧ t.text = name))

/-- The body of a raw environment is one token at most, and then the environment ends, or the text
does. -/
def FramesBody (name : Text) (l : List Token) : Prop :=
  EndsBody name l ∨ ∃ body rest, l = body :: rest ∧ body.kind = .rawText ∧ EndsBody name rest

/-- Behind every begin marker of a raw environment stands its body. -/
def Framed : List Token → Prop
  | [] => True
  | t :: rest =>
    (t.kind = .envBegin → t.text ∈ rawEnvironments → FramesBody t.text rest) ∧ Framed rest

theorem Framed.of_append {l rest : List Token} (h : Framed (l ++ rest)) : Framed rest := by
  induction l with
  | nil => exact h
  | cons t l ih => exact ih h.2

namespace Text

variable {name t : Text}

/-- An end marker comes first among the tokens. -/
theorem endsBody_of_startsWithEndMarker (hname : name ∈ rawEnvironments)
    (h : startsWithEndMarker name t = true) (keep : Bool) (m : LineMark) (offset : Nat) :
    EndsBody name (t.tokensFrom keep .normal m offset) := by
  cases t with
  | nil => exact absurd h (by simp [startsWithEndMarker])
  | cons u rest =>
    obtain ⟨hk, htext⟩ := Lexeme.ofMarkup_of_startsWithEndMarker hname h
    have hcomment : ¬ ((Lexeme.read .normal u rest).kind = .comment ∧ keep = false) := by
      simp [Lexeme.read, hk]
    rw [tokensFrom]
    simp only [if_neg hcomment]
    exact ⟨_, _, rfl, .inr ⟨hk, htext⟩⟩

/-- The tokens of the body of a raw environment. -/
theorem framesBody_tokensFrom (hname : name ∈ rawEnvironments) (keep : Bool) (m : LineMark)
    (offset : Nat) : FramesBody name (t.tokensFrom keep (.rawText name) m offset) := by
  cases t with
  | nil =>
    rw [tokensFrom]
    exact .inl ⟨_, _, rfl, .inl rfl⟩
  | cons u rest =>
    cases hn : endMarkerOffset? name (u :: rest) with
    | none =>
      -- The body runs to the end of the text.
      have hread : Lexeme.read (.rawText name) u rest
          = Lexeme.spelled .rawText (u :: rest) (rest.length + 1) { unterminated := true } := by
        simp only [Lexeme.read, Lexeme.ofRawBody, hn]
      rw [tokensFrom]
      simp only [hread, Lexeme.spelled, reduceCtorEq, false_and, if_false]
      refine .inr ⟨_, _, rfl, rfl, ?_⟩
      rw [List.drop_of_length_le (by simp), tokensFrom]
      exact ⟨_, _, rfl, .inl rfl⟩
    | some n =>
      have hmarker := Lexeme.startsWithEndMarker_of_offset hn
      cases n with
      | zero =>
        -- The body is empty, so the end marker is read in its place.
        have hread : Lexeme.read (.rawText name) u rest = Lexeme.read .normal u rest := by
          simp only [Lexeme.read, Lexeme.ofRawBody, hn]
        have hends := endsBody_of_startsWithEndMarker hname hmarker keep m offset
        rw [List.drop_zero, tokensFrom] at hends
        rw [tokensFrom, hread]
        exact .inl hends
      | succ n =>
        -- The body stops where the end marker begins, and the marker is read in normal mode.
        have hread : Lexeme.read (.rawText name) u rest
            = Lexeme.spelled .rawText (u :: rest) (n + 1) := by
          simp only [Lexeme.read, Lexeme.ofRawBody, hn]
        rw [tokensFrom]
        simp only [hread, Lexeme.spelled, reduceCtorEq, false_and, if_false]
        exact .inr ⟨_, _, rfl, rfl, endsBody_of_startsWithEndMarker hname hmarker _ _ _⟩

theorem framed_tokensFrom (keep : Bool) (mode : Mode) (m : LineMark) (offset : Nat) (t : Text) :
    Framed (t.tokensFrom keep mode m offset) := by
  fun_induction tokensFrom keep mode m offset t with
  | case1 mode m offset => exact ⟨fun hk => absurd hk (by simp [Token.atEnd, Lexeme.toToken]), trivial⟩
  | case2 mode m offset u rest x hc n ih => exact ih
  | case3 mode m offset u rest x hc ih =>
    refine ⟨fun hk hraw => ?_, ih⟩
    have hmode : x.mode = .rawText x.text := Lexeme.mode_of_kind_read hk hraw
    rw [hmode]
    exact framesBody_tokensFrom hraw _ _ _

/-- Behind every begin marker of a raw environment in a text stands its body. -/
theorem framed_tokens (source : Text) (keep : Bool) : Framed (source.tokens keep) := by
  rw [tokens_eq_tokensFrom]
  exact framed_tokensFrom _ _ _ _ _

/-! ## Behind a command -/

/-- Raw text that comes first among tokens is on one line, unless the tokens are those of the body of
a raw environment. -/
theorem isLineBreak_of_head?_tokensFrom {keep : Bool} {mode : Mode} {m : LineMark} {offset : Nat}
    {t : Text} (hmode : ∀ name, mode ≠ .rawText name) :
    ∀ r ∈ (t.tokensFrom keep mode m offset).head?, r.kind = .rawText →
      ∀ u ∈ r.text, u.isLineBreak = false := by
  fun_induction tokensFrom keep mode m offset t with
  | case1 mode m offset =>
    intro r hr hk
    rw [← Option.some.inj hr] at hk
    cases hk
  | case2 mode m offset u rest x hc n ih => exact ih (by simp)
  | case3 mode m offset u rest x hc ih =>
    intro r hr hk v hv
    rw [← Option.some.inj hr] at hk hv
    cases mode with
    | normal => exact absurd hk (Lexeme.kind_ofMarkup_ne_rawText u rest)
    | rawText name => exact absurd rfl (hmode name)
    | verbatim d => exact Lexeme.isLineBreak_of_mem_ofVerbatim hv

end Text

/-- Raw text right behind a command is on one line. -/
def VerbsEnd : List Token → Prop
  | [] => True
  | t :: rest =>
    (t.kind = .command → ∀ r ∈ rest.head?, r.kind = .rawText → ∀ u ∈ r.text, u.isLineBreak = false) ∧
      VerbsEnd rest

theorem VerbsEnd.of_append {l rest : List Token} (h : VerbsEnd (l ++ rest)) : VerbsEnd rest := by
  induction l with
  | nil => exact h
  | cons t l ih => exact ih h.2

namespace Text

theorem verbsEnd_tokensFrom (keep : Bool) (mode : Mode) (m : LineMark) (offset : Nat) (t : Text) :
    VerbsEnd (t.tokensFrom keep mode m offset) := by
  fun_induction tokensFrom keep mode m offset t with
  | case1 mode m offset => exact ⟨fun _ r hr => by simp at hr, trivial⟩
  | case2 mode m offset u rest x hc n ih => exact ih
  | case3 mode m offset u rest x hc ih =>
    refine ⟨fun hk => isLineBreak_of_head?_tokensFrom fun name hname => ?_, ih⟩
    -- Only a begin marker is followed by the body of a raw environment.
    have hbegin : x.kind = .envBegin := (Lexeme.begins_of_mode hname).1
    have hcommand : x.kind = .command := hk
    rw [hbegin] at hcommand
    cases hcommand

/-- Raw text right behind a command of a text is on one line. -/
theorem verbsEnd_tokens (source : Text) (keep : Bool) : VerbsEnd (source.tokens keep) := by
  rw [tokens_eq_tokensFrom]
  exact verbsEnd_tokensFrom _ _ _ _ _

end Text

end LatexMarkdown
