import LatexMarkdown.Proofs.Dropping
import LatexMarkdown.Proofs.Embedding.Tokens
import LatexMarkdown.Proofs.Likeness.State
/-!
  The tokens of a source with its comments, and without them.

  Reading the two is a likeness in which nothing that is made is compared (`Parse.Likeness.comments`).
  What is asked of it is that the second list is the first without the comments and the line breaks
  right behind them (`Parse.Likeness.pairs_cursor`): behind a comment there is always a line break,
  which ends no blank line, or the end of the text (`CommentsEnd`).
-/
namespace LatexMarkdown

/-! ## Lexemes -/

namespace Lexeme

variable {mode : Mode} {u : CodeUnit} {rest : Text}

/-- Only behind a command or a begin marker is anything read raw. -/
theorem kind_of_mode_read (h : (read mode u rest).mode ≠ .normal) :
    (read mode u rest).kind = .command ∨ (read mode u rest).kind = .envBegin := by
  obtain heq | ⟨-, hmode⟩ := read_cases mode u rest
  · rw [heq] at h ⊢
    obtain ⟨t, heq⟩ | ⟨hmode, -⟩ := ofMarkup_cases u rest
    · rw [heq] at h ⊢
      obtain ⟨hk, -⟩ | ⟨-, hmode⟩ | ⟨hk, -⟩ := ofCommand_cases t
      · exact .inr hk
      · exact absurd hmode h
      · exact .inl hk
    · exact absurd hmode h
  · exact absurd hmode h

end Lexeme

/-! ## Token lists -/

namespace Parse

/-- Behind a comment stands a line break that ends no blank line, or the list ends. -/
def CommentsEnd : List Token → Prop
  | [] => True
  | t :: rest =>
    (t.kind = .comment →
      ∀ r ∈ rest.head?, r.kind = .endOfFile ∨ (r.kind = .newLine ∧ r.isBlankLine = false)) ∧
      CommentsEnd rest

theorem CommentsEnd.of_append_left {l rest : List Token} (h : CommentsEnd (l ++ rest)) :
    CommentsEnd l := by
  induction l with
  | nil => trivial
  | cons t l ih =>
    rw [List.cons_append, CommentsEnd] at h
    refine ⟨fun hk r hr => h.1 hk r ?_, ih h.2⟩
    rw [List.head?_append, Option.mem_def.mp hr]
    rfl

end Parse

namespace Text

open Parse

theorem head?_tokensFrom_normal (keep : Bool) (m : LineMark) (offset : Nat) (t : Text) :
    ∀ r ∈ (tokensFrom keep .normal m offset t).head?, r.kind ≠ .rawText := by
  intro r hr hk
  induction hn : t.length using Nat.strong_induction_on generalizing m offset t with
  | _ n ih =>
  cases t with
  | nil =>
    rw [tokensFrom] at hr
    rw [← Option.some.inj hr] at hk
    cases hk
  | cons u rest =>
    rw [tokensFrom] at hr
    simp only at hr
    split at hr
    · refine ih _ ?_ _ _ _ hr rfl
      have hpos := Lexeme.length_read_pos .normal u rest
      rw [← hn, List.length_drop, List.length_cons]
      omega
    · rw [← Option.some.inj hr] at hk
      exact Lexeme.kind_ofMarkup_ne_rawText u rest hk

theorem rawPlaced_tokensFrom (keep : Bool) (mode : Mode) (m : LineMark) (offset : Nat) (t : Text) :
    RawPlaced (tokensFrom keep mode m offset t) := by
  fun_induction tokensFrom keep mode m offset t with
  | case1 mode m offset => exact ⟨by simp, trivial⟩
  | case2 mode m offset u rest x hc n ih => exact ih
  | case3 mode m offset u rest x hc ih =>
    refine ⟨fun r hr hk => ?_, ih⟩
    by_cases hmode : x.mode = .normal
    · rw [hmode] at hr
      exact absurd hk (head?_tokensFrom_normal _ _ _ _ r hr)
    · exact Lexeme.kind_of_mode_read hmode

/-- Raw text stands right behind a command or a begin marker of a text. -/
theorem rawPlaced_tokens (source : Text) (keep : Bool) : RawPlaced (source.tokens keep) := by
  rw [tokens_eq_tokensFrom]
  exact rawPlaced_tokensFrom _ _ _ _ _

theorem commentsEnd_tokensFrom (keep : Bool) (mode : Mode) (m : LineMark) (offset : Nat) (t : Text) :
    CommentsEnd (tokensFrom keep mode m offset t) := by
  fun_induction tokensFrom keep mode m offset t with
  | case1 mode m offset => exact ⟨by simp, trivial⟩
  | case2 mode m offset u rest x hc n ih => exact ih
  | case3 mode m offset u rest x hc ih =>
    refine ⟨fun hk r hr => ?_, ih⟩
    have hkind : x.kind = .comment := hk
    obtain ⟨rfl, rfl⟩ := Lexeme.eq_normal_of_kind_comment hkind
    have hdrop : ((0x25 : CodeUnit) :: rest).drop x.length = rest.dropWhile (!·.isLineBreak) :=
      Lexeme.drop_length_ofComment rest
    rw [hdrop] at hr
    cases hrest : rest.dropWhile (!·.isLineBreak) with
    | nil =>
      rw [hrest, tokensFrom] at hr
      rw [← Option.some.inj hr]
      exact .inl rfl
    | cons v after =>
      have hv := Lexeme.isLineBreak_of_dropWhile_eq hrest
      have hread : (Lexeme.read .normal v after).kind = .newLine := by
        rw [Lexeme.read_lineBreak hv]
        rfl
      have hmode : x.mode = .normal := rfl
      rw [hrest, hmode, tokensFrom] at hr
      simp only [hread, reduceCtorEq, false_and, if_false] at hr
      rw [← Option.some.inj hr]
      -- The comment itself is content of the line.
      have hcontent : (m.after x).hasContent = true := by simp [LineMark.after, hkind]
      exact .inr ⟨hread, by simp [Token.isBlankLine, Lexeme.toToken, hcontent]⟩

/-- Behind a comment of a text stands a line break that ends no blank line, or the text ends. -/
theorem commentsEnd_tokens (source : Text) (keep : Bool) : CommentsEnd (source.tokens keep) := by
  rw [tokens_eq_tokensFrom]
  exact commentsEnd_tokensFrom _ _ _ _ _

end Text

namespace Parse

theorem withoutComments_append_end (behind : Bool) (l : List Token) {last : Token}
    (hk : last.kind = .endOfFile) :
    Token.withoutComments behind (l ++ [last]) = Token.withoutComments behind l ++ [last] := by
  induction l generalizing behind with
  | nil => simp [Token.withoutComments, hk]
  | cons t l ih =>
    simp only [List.cons_append, Token.withoutComments, ih]
    split
    · rfl
    split
    · rfl
    · rfl

/-! ## The two lists -/

namespace Likeness

section Pairs

variable {R : Likeness} (hthin : R.thin) (hsame : ∀ t, R.Same t t)

include hthin hsame

theorem pairs_withoutComments (behind : Bool) {l : List Token} (hcomments : CommentsEnd l)
    (hend : ∀ t ∈ l, t.kind ≠ .endOfFile)
    (hbreak : ∀ t ∈ l, t.kind = .newLine → R.text (R.ctx.source.spelling t) [])
    (hbehind : behind = true → ∀ t ∈ l.head?, t.kind = .newLine ∧ t.isBlankLine = false) :
    R.Pairs behind l (Token.withoutComments behind l) := by
  induction l generalizing behind with
  | nil => exact .nil behind
  | cons t l ih =>
    rw [List.forall_mem_cons] at hend hbreak
    have hrest := fun b => ih b hcomments.2 hend.2 hbreak.2
    cases behind with
    | true =>
      obtain ⟨hk, hblank⟩ := hbehind rfl t rfl
      rw [Token.withoutComments, if_neg (by rw [hk]; decide), if_pos ⟨rfl, hk⟩]
      exact .lineBreak hthin hk hblank (hbreak.1 hk) (hrest false (by simp))
    | false =>
      by_cases hk : t.kind = .comment
      · rw [Token.withoutComments, if_pos hk]
        refine .comment hthin hk (hrest true fun _ r hr => ?_)
        exact (hcomments.1 hk r hr).resolve_left (hend.2 r (List.mem_of_mem_head? hr))
      · rw [Token.withoutComments_cons hk]
        exact .same (hsame t) hend.1 (fun _ => hk) (hrest false (by simp))

/-- Without its comments a source has the tokens that it has with them, less the comments and the
line breaks right behind them. -/
theorem pairs_cursor {source : Text} (hbreak : ∀ t ∈ source.tokens true, t.kind = .newLine →
    R.text (R.ctx.source.spelling t) []) :
    R.Pairs false (source.cursor true).ahead (source.cursor false).ahead := by
  obtain ⟨l, last, htokens⟩ := Text.exists_tokens_eq true source
  have hahead : (source.cursor true).ahead = l := by
    show (source.tokens true).dropLast = l
    rw [htokens, List.dropLast_concat]
  have hlast : last.kind = .endOfFile := by
    have hfinal := source.terminated_cursor true
    rwa [Cursor.Terminated, show (source.cursor true).final = last by
      show (source.tokens true).getLast?.getD .endOfInput = last
      rw [htokens, List.getLast?_concat]
      rfl] at hfinal
  have hsameToEnd := Text.sameToEnd_tokensFrom {} 0 .normal source
  rw [← Text.tokens_eq_tokensFrom, ← Text.tokens_eq_tokensFrom, htokens,
    withoutComments_append_end false l hlast] at hsameToEnd
  obtain ⟨before, e, e', hkept, hdropped, -⟩ := hsameToEnd
  have hahead' : (source.cursor false).ahead = Token.withoutComments false l := by
    show (source.tokens false).dropLast = _
    rw [hdropped, List.dropLast_concat, (List.append_inj' hkept rfl).1]
  have hcomments : CommentsEnd l := (htokens ▸ Text.commentsEnd_tokens source true).of_append_left
  have hend := Text.kind_ahead_cursor true source
  rw [hahead] at hend
  rw [hahead, hahead']
  refine pairs_withoutComments hthin hsame false hcomments hend (fun t ht => hbreak t ?_) (by simp)
  rw [htokens]
  exact List.mem_append_left _ ht

end Pairs

/-- All that is known of the tokens of a source in which no comment stands before an argument. -/
theorem tame_cursor {counts : Prop} {source : Text} (hapart : Apart (source.tokens true))
    (hwhole : counts → CountsWhole (source.tokens true)) :
    Tame counts (source.cursor true).remaining := by
  have hne : source.tokens true ≠ [] := by
    rw [Text.tokens_eq_tokensFrom]
    exact Text.tokensFrom_ne_nil _ _ _ _ _
  have hremaining : (source.cursor true).remaining = source.tokens true := Cursor.remaining_ofTokens hne
  rw [hremaining]
  exact ⟨hapart, Text.framed_tokens source true, Text.rawPlaced_tokens source true, hwhole⟩

/-! ## The likeness -/

variable {settings : Settings} {source : Text}

/-- Headings are moved by as much, whatever becomes of comments. -/
theorem offset_keepComments (settings : Settings) (source : Text) :
    (Context.of { settings with keepComments := false } source).settings.headingLevelOffset
      = (Context.of { settings with keepComments := true } source).settings.headingLevelOffset :=
  rfl

/-- Reading a source with its comments, and reading it without them. -/
def comments (settings : Settings) (source : Text) : Likeness where
  ctx := .of { settings with keepComments := true } source
  ctx' := .of { settings with keepComments := false } source
  thin := True
  counts := False
  exact _ _ := True
  text _ _ := True
  pushed _ _ := True
  inlines _ _ := True
  fragments _ _ := True
  blocks _ _ := True
  items _ _ := True
  cells _ _ := True
  rows _ _ := True
  count _ _ := True
  offset_eq := offset_keepComments settings source
  exact_unbroken _ := trivial
  exact_append _ _ := trivial
  text_of_exact _ := trivial
  text_append _ _ := trivial
  text_trim _ := trivial
  pushed_append _ _ := trivial
  pushed_mathSpan _ _ _ _ _ _ _ := trivial
  pushed_hardBreak _ _ _ _ := trivial
  pushed_code _ _ _ _ _ _ _ := trivial
  pushed_url _ _ _ _ _ _ _ := trivial
  inlines_nil := trivial
  fragments_nil := trivial
  fragments_pushText _ _ _ _ _ _ _ _ _ _ := trivial
  fragments_foldl _ _ := trivial
  fragments_close _ _ _ _ _ _ _ _ _ _ _ := trivial
  inlines_finish _ := trivial
  blocks_nil := trivial
  blocks_append _ _ := trivial
  blocks_paragraph _ _ _ _ _ _ _ := trivial
  blocks_heading _ _ _ _ _ _ _ _ _ := trivial
  blocks_quote _ _ _ _ _ _ _ := trivial
  blocks_list _ _ _ _ _ _ _ _ := trivial
  blocks_code _ _ _ _ _ _ _ _ := trivial
  blocks_math _ _ _ _ _ _ _ _ := trivial
  blocks_displayMath _ _ _ _ _ _ _ := trivial
  blocks_table _ _ _ _ _ _ _ := trivial
  items_nil := trivial
  items_finish _ _ _ _ _ _ _ _ _ _ := trivial
  cells_nil := trivial
  cells_finish _ _ _ _ _ _ _ _ _ := trivial
  rows_nil := trivial
  rows_finish _ _ _ _ _ _ := trivial
  count_refl := fun _ => trivial
  count_text _ _ := trivial

theorem pairs_comments (settings : Settings) (source : Text) :
    (comments settings source).Pairs false (source.cursor true).ahead (source.cursor false).ahead :=
  pairs_cursor trivial (fun _ => ⟨rfl, rfl, rfl, fun _ _ => rfl, trivial, trivial⟩) fun _ _ _ => trivial

end Likeness

end Parse

end LatexMarkdown
