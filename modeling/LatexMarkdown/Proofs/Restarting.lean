import LatexMarkdown.Proofs.Numerals
import LatexMarkdown.Proofs.Tiling
import LatexMarkdown.Proofs.Tracking
/-!
  Scanning again from the start of a line.

  A rollback works out what it has to know of the line from the text in front of the offset.  Where a
  line begins that is nothing but the line break, and a scan that came there over a line break knows
  as much and reads in normal mode.  So from the end of a line break token the tokens are a matter of
  the text that is left: those of the whole text are so (`Text.dropWhile_tokensFrom`), and those after
  a rollback are (`Scanner.exists_rollback_lineStart`).  Main statement: `tokens_restarted`.
-/
namespace LatexMarkdown

namespace Text

variable {t : Text} {n : Nat}

theorem IsLineStart.le_length (h : t.IsLineStart n) : n ≤ t.length := by
  rcases h with rfl | ⟨hpos, hbreak⟩
  · exact Nat.zero_le _
  · have hsome : ∃ u, t[n - 1]? = some u := hbreak.elim (⟨_, ·⟩) (⟨_, ·.1⟩)
    obtain ⟨u, hu⟩ := hsome
    obtain ⟨hlt, -⟩ := List.getElem?_eq_some_iff.mp hu
    omega

/-- No line begins inside a line break. -/
theorem IsLineStart.not_cuts (h : t.IsLineStart n) : ¬ t.Cuts n := by
  rintro ⟨hpos, hreturn, hfeed⟩
  rcases h with rfl | ⟨-, hlf | ⟨-, hne⟩⟩
  · exact Nat.lt_irrefl 0 hpos
  · rw [hreturn] at hlf
    exact absurd hlf (by decide)
  · exact hne hfeed

/-- A line begins behind a line break. -/
theorem isLineStart_breakLength {u : CodeUnit} {rest : Text} (hdrop : t.drop n = u :: rest)
    (hbreak : u.isLineBreak = true) : t.IsLineStart (n + breakLength (u :: rest)) := by
  unfold breakLength
  split
  · next more heq => exact (isLineStart_of_pair (hdrop.trans heq)).2
  · next v more hlone heq =>
    obtain ⟨rfl, rfl⟩ := List.cons.inj heq
    rw [if_pos hbreak]
    exact isLineStart_of_lone hdrop hbreak hlone
  · next heq => cases heq

end Text

/-! ## The tokens behind a line break -/

/-- Only a line break is read as one: in every mode it ends where a line begins, and what is behind it
is read as markup. -/
theorem Lexeme.of_kind_newLine {mode : Mode} {u : CodeUnit} {rest : Text}
    (h : (read mode u rest).kind = .newLine) :
    u.isLineBreak = true ∧ (read mode u rest).length = Text.breakLength (u :: rest) ∧
      (read mode u rest).mode = .normal := by
  have hkind : (read mode u rest).kind.category? = some .lineBreak := by rw [h]; rfl
  obtain ⟨heq, hcategory⟩ := read_of_category hkind
  rw [heq, ofMarkup, hcategory]
  exact ⟨isLineBreak_of_category hcategory, rfl, rfl⟩

/-- Behind a line break among the tokens of a text, the tokens are those of the text that is left
there, at the start of a line. -/
theorem Text.dropWhile_tokensFrom {source t : Text} {keep : Bool} {mode : Mode} {m : LineMark}
    {offset : Nat} (hdrop : source.drop offset = t) {token : Token}
    (htoken : token ∈ t.tokensFrom keep mode m offset) (hk : token.kind = .newLine) :
    source.IsLineStart token.stop ∧ token.start < token.stop ∧
      (t.tokensFrom keep mode m offset).dropWhile (·.start < token.stop)
        = tokensFrom keep .normal ⟨false, true⟩ token.stop (source.drop token.stop) := by
  -- On the lexemes of the text, with the offset as far on as the text is passed.
  fun_induction Text.tokensFrom keep mode m offset t with
  | case1 mode m offset =>
    rw [List.mem_singleton.mp htoken] at hk
    cases hk
  | case2 mode m offset u rest x _ n ih =>
    -- A comment that is dropped is no token.
    exact ih (by rw [← hdrop, List.drop_drop]) htoken
  | case3 mode m offset u rest x _ ih =>
    have hbehind : source.drop (offset + x.length) = (u :: rest).drop x.length := by
      rw [← hdrop, List.drop_drop]
    have hstarts : ∀ token ∈ tokensFrom keep x.mode (m.after x) (offset + x.length)
        ((u :: rest).drop x.length), offset + x.length ≤ token.start := le_start_tokensFrom
    rcases List.mem_cons.mp htoken with rfl | hrest
    · -- The line break is the first token, and no other token starts before its end.
      obtain ⟨hbreak, hlength, hmode⟩ := Lexeme.of_kind_newLine hk
      have hpos : 0 < x.length := Lexeme.length_read_pos mode u rest
      have hstop : (x.toToken m offset).stop = offset + x.length := rfl
      have hstart : (x.toToken m offset).start = offset := rfl
      rw [hstop, hstart]
      refine ⟨?_, by omega, ?_⟩
      · rw [show x.length = breakLength (u :: rest) from hlength]
        exact isLineStart_breakLength hdrop hbreak
      · rw [List.dropWhile_cons_of_pos (by simp [hstart, hpos]), hbehind,
          ← LineMark.after_lineBreak hk m, ← show x.mode = .normal from hmode]
        refine List.dropWhile_eq_self_iff.mpr fun hlt => ?_
        have hle := hstarts _ (List.getElem_mem hlt)
        simpa using hle
    · -- The line break comes later, and the first token starts before its end.
      obtain ⟨hline, hlt, htokens⟩ := ih hbehind hrest
      have hle := hstarts token hrest
      refine ⟨hline, hlt, ?_⟩
      have hbefore : (x.toToken m offset).start < token.stop := by
        show offset < token.stop
        omega
      rw [List.dropWhile_cons_of_pos (by simpa using hbefore)]
      exact htokens

/-! ## The tokens after a rollback -/

namespace Scanner

/-- A rollback to the start of a line succeeds, and scanning goes on with the text from there, at
whatever offset it says that it was restarted. -/
theorem exists_rollback_lineStart {s : Scanner} {n : Nat} (hline : s.source.IsLineStart n) :
    ∃ r, s.rollback n = .ok r ∧ ∀ offset : Number, ({ r with restart := offset } : Scanner).tokens
      = Text.tokensFrom s.keepComments .normal ⟨false, decide (0 < n)⟩ n (s.source.drop n) := by
  have hle := hline.le_length
  obtain ⟨hoffset, hrest⟩ := Place.moveTo_of_not_cuts (p := {}) n (Nat.zero_le n)
    (by simpa using hle) (by simpa using hline.not_cuts)
  have hplace : (Place.moveTo n {} s.source).1.On s.source :=
    ((Place.On.front s.source).moveTo rfl n).1
  -- The line of the place begins right there.
  have hstart : (Place.moveTo n {} s.source).1.lineStart = n := by
    rw [hplace.lineStart_eq (hoffset.symm ▸ hline), hoffset]
  have hrange : ¬ ((n : Int) < 0 ∨ (s.source.length : Int) < n) := by omega
  refine ⟨_, by rw [rollback, if_neg hrange], fun offset => ?_⟩
  refine (tokens_eq_tokensFrom _ ?_).trans ?_
  · exact trivial
  · -- What is known of the line is that nothing is in it yet, and a break before it unless it is first.
    have hmark : (0 : Int) < n ↔ 0 < n := Int.natCast_pos
    simp only [lineMark, Int.toNat_natCast, hoffset, hrest, hstart, Text.slice_self, hmark]
    simp

/-- A rollback to a whole number is the rollback to that unit. -/
theorem call_rollback_of_toInt? {s r : Scanner} {offset : Number} {n : Nat}
    (hn : offset.toInt? = some (n : Int)) (hok : s.rollback n = .ok r) :
    s.call (.rollback offset) = ({ r with restart := offset }, none) := by
  have hnan : offset ≠ .nan := by
    rintro rfl
    cases hn
  have hle : 0 ≤ offset := Number.zero_le_of_toInt? hn (Int.natCast_nonneg n)
  simp only [call, rollbackBetween, if_neg hnan, if_pos hle, Number.ceil?_of_toInt? hn, Option.map_some,
    hok]

/-- A call for such a rollback is not refused. -/
theorem exists_call_lineStart {s : Scanner} {n : Nat} (hline : s.source.IsLineStart n)
    {offset : Number} (hn : offset.toInt? = some (n : Int)) :
    ∃ r, s.call (.rollback offset) = (r, none) ∧
      r.tokens
        = Text.tokensFrom s.keepComments .normal ⟨false, decide (0 < n)⟩ n (s.source.drop n) := by
  obtain ⟨r, hok, htokens⟩ := exists_rollback_lineStart hline
  exact ⟨_, call_rollback_of_toInt? hn hok, htokens offset⟩

/-- From the front of the text, or from the end of a line break among its tokens, a scanner that is
rolled back goes on with the tokens of the text that start there or later, whatever it was asked
before. -/
theorem tokens_restarted {calls : List Call} {text : Text} {keep : Bool}
    (hgiven : givenLast calls = (text, keep)) {p : Nat}
    (hp : p = 0 ∨ ∃ token ∈ text.tokens keep, token.kind = .newLine ∧ token.stop = p)
    {offset : Number} (hoffset : offset.toInt? = some (p : Int)) :
    ∃ r, (afterCalls calls).call (.rollback offset) = (r, none) ∧
      r.tokens = (text.tokens keep).dropWhile (·.start < p) := by
  obtain ⟨hsource, hkeep⟩ : (afterCalls calls).source = text ∧ (afterCalls calls).keepComments = keep :=
    Prod.mk.inj ((given_afterCalls calls).trans hgiven)
  rw [Text.tokens_eq_tokensFrom] at hp ⊢
  rcases hp with rfl | ⟨token, htoken, hk, rfl⟩
  · -- No token starts before the front.
    obtain ⟨r, hcall, htokens⟩ :=
      exists_call_lineStart (afterCalls calls).source.isLineStart_zero hoffset
    refine ⟨r, hcall, ?_⟩
    rw [htokens, hsource, hkeep, List.drop_zero]
    exact (List.dropWhile_eq_self_iff.mpr fun _ => by simp).symm
  · obtain ⟨hline, hlt, hdrop⟩ := Text.dropWhile_tokensFrom List.drop_zero htoken hk
    obtain ⟨r, hcall, htokens⟩ := exists_call_lineStart (hsource.symm ▸ hline) hoffset
    have hpos : 0 < token.stop := Nat.lt_of_le_of_lt (Nat.zero_le _) hlt
    refine ⟨r, hcall, ?_⟩
    rw [htokens, hdrop, hsource, hkeep, decide_eq_true hpos]

/-- A scanner that was in another text, inside a line break and in front of a verbatim argument is
rolled back to the line behind it. -/
theorem tokens_restarted_sample :
    let text : Text := "a%c\n\\verb|x|\r\n b\nd"
    let calls : List Call :=
      [.init "old\n" true, .scan, .init text false, .rollback 13, .scan, .rollback 4, .scan]
    givenLast calls = (text, false) ∧ (afterCalls calls).mode = .verbatim 0x7C ∧
      (∃ token ∈ text.tokens false, token.kind = .newLine ∧ token.stop = 14) ∧
      Number.toInt? 14 = some ((14 : Nat) : Int) ∧
      ∃ r, (afterCalls calls).call (.rollback 14) = (r, none) ∧
        r.tokens = (text.tokens false).dropWhile (·.start < 14) := by
  intro text calls
  have hgiven : givenLast calls = (text, false) := rfl
  have hmode : (afterCalls calls).mode = .verbatim 0x7C := by decide +kernel
  have hbreak : ∃ token ∈ text.tokens false, token.kind = .newLine ∧ token.stop = 14 := by
    decide +kernel
  have hoffset : Number.toInt? 14 = some ((14 : Nat) : Int) := by decide +kernel
  exact ⟨hgiven, hmode, hbreak, hoffset, tokens_restarted hgiven (.inr hbreak) hoffset⟩

end Scanner

end LatexMarkdown
