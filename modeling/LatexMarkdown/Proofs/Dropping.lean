import LatexMarkdown.Proofs.Tiling
/-!
  Comments dropped while scanning, and comments taken out of the token list.

  Main statement: `tokens_drop_comments`.  Under either policy the scanner reads the same lexemes;
  where it drops comments its list is the one with comments, less every comment and the line break
  right behind it (`Token.withoutComments`).

  `Scanner.droppedComments` says where the comments are that a scanner drops; they are where the
comments are that it would keep (`droppedComments_eq`).

  A kept comment is content of its line and its line break is a token; a dropped one moves the
  scanner over both at once.  Behind the line break the two have the same line to go on with
  (`LineMark.after_lineBreak`).  A comment that the end of the text ends has no line break, and so
  the last token alone may see another line.
-/
namespace LatexMarkdown

/-- A token list without its comments and the line breaks right behind them; `behind` says that the
token before the list is a comment. -/
def Token.withoutComments (behind : Bool) : List Token → List Token
  | [] => []
  | t :: rest =>
    if t.kind = .comment then withoutComments true rest
    else if behind = true ∧ t.kind = .newLine then withoutComments false rest
    else t :: withoutComments false rest

/-- The token as it would be on a line that begins the same way as that of `other`. -/
def Token.onLineOf (t other : Token) : Token :=
  { t with flags := { t.flags with
      atLineStart := other.flags.atLineStart
      afterBreak := other.flags.afterBreak } }

/-- Token lists that are the same up to the end-of-file token, which may stand on another line. -/
def Token.SameToEnd (tokens tokens' : List Token) : Prop :=
  ∃ before last last', tokens = before ++ [last] ∧ tokens' = before ++ [last'] ∧
    last.kind = .endOfFile ∧ last' = last.onLineOf last'

namespace Token

theorem SameToEnd.cons {tokens tokens' : List Token} (t : Token) (h : SameToEnd tokens tokens') :
    SameToEnd (t :: tokens) (t :: tokens') := by
  obtain ⟨before, last, last', rfl, rfl, hk, hlast⟩ := h
  exact ⟨t :: before, last, last', rfl, rfl, hk, hlast⟩

/-- At the end of the text only the line before it is left to differ. -/
theorem sameToEnd_atEnd (m m' : LineMark) (offset : Nat) :
    SameToEnd [.atEnd m offset] [.atEnd m' offset] :=
  ⟨[], _, _, rfl, rfl, rfl, rfl⟩

theorem withoutComments_cons {t : Token} (h : t.kind ≠ .comment) (rest : List Token) :
    withoutComments false (t :: rest) = t :: withoutComments false rest := by
  rw [withoutComments, if_neg h, if_neg (by simp)]

end Token

/-! ## Behind a comment -/

namespace LineMark

/-- Behind a dropped comment that a line break ends, the line is a new one as behind a line break. -/
theorem afterComment_of_pos {n : Nat} (h : 0 < n) (m : LineMark) :
    m.afterComment n = ⟨false, true⟩ := by
  have hne : n ≠ 0 := by omega
  simp [afterComment, hne]

end LineMark

/-! ## Lexemes of comments -/

namespace Lexeme

/-- The lexeme of a comment: it goes up to the end of its line. -/
def ofComment (rest : Text) : Lexeme where
  kind := .comment
  length := 1 + (rest.takeWhile (!·.isLineBreak)).length
  text := rest.takeWhile (!·.isLineBreak)

theorem read_percent (rest : Text) : read .normal 0x25 rest = ofComment rest := rfl

/-- A comment is read in normal mode, and at a percent sign. -/
theorem eq_normal_of_kind_comment {mode : Mode} {u : CodeUnit} {rest : Text}
    (h : (read mode u rest).kind = .comment) : mode = .normal ∧ u = 0x25 := by
  obtain ⟨rfl, -⟩ := eq_of_kind_read_comment h
  refine ⟨?_, rfl⟩
  cases mode with
  | normal => rfl
  | rawText environment =>
    exfalso
    simp only [read, ofRawBody] at h
    split at h
    · next hzero =>
      -- Raw text is left only where an end marker stands, and that is no percent sign.
      have hhead := startsWithEndMarker_head (startsWithEndMarker_of_offset hzero)
      rw [List.drop_zero, List.head?_cons] at hhead
      exact absurd hhead (by decide)
    · simp [spelled] at h
    · simp [spelled] at h
  | verbatim d =>
    exfalso
    simp only [read, ofVerbatim] at h
    split at h <;> simp at h

/-- What a comment leaves is the text from the end of its line on. -/
theorem drop_length_ofComment (rest : Text) :
    ((0x25 : CodeUnit) :: rest).drop (ofComment rest).length = rest.dropWhile (!·.isLineBreak) := by
  show ((0x25 : CodeUnit) :: rest).drop (1 + (rest.takeWhile (!·.isLineBreak)).length) = _
  rw [Nat.add_comm, List.drop_succ_cons, Text.drop_length_takeWhile]

theorem isLineBreak_of_dropWhile_eq {rest after : Text} {v : CodeUnit}
    (h : rest.dropWhile (!·.isLineBreak) = v :: after) : v.isLineBreak = true := by
  have hstop := List.head?_dropWhile_not (fun u : CodeUnit => !u.isLineBreak) rest
  rw [h] at hstop
  simpa using hstop

theorem read_lineBreak {v : CodeUnit} (hv : v.isLineBreak = true) (after : Text) :
    read .normal v after = spelled .newLine (v :: after) (Text.breakLength (v :: after)) := by
  have hcategory : Category.ofUnit v = .lineBreak := by
    simp only [CodeUnit.isLineBreak, Bool.or_eq_true, beq_iff_eq] at hv
    rcases hv with rfl | rfl <;> rfl
  show ofMarkup v after = _
  rw [ofMarkup, hcategory]

end Lexeme

/-! ## The token lists -/

namespace Text

variable (m : LineMark) (offset : Nat) (rest : Text)

/-- A kept comment is the first token. -/
theorem tokensFrom_comment :
    tokensFrom true .normal m offset (0x25 :: rest)
      = (Lexeme.ofComment rest).toToken m offset
        :: tokensFrom true .normal (m.after (.ofComment rest))
            (offset + (Lexeme.ofComment rest).length) (rest.dropWhile (!·.isLineBreak)) := by
  rw [tokensFrom]
  simp only [Lexeme.read_percent, Lexeme.drop_length_ofComment, Bool.true_eq_false, and_false,
    if_false]
  rfl

/-- A line break is the first token, and what is left is on a new line. -/
theorem tokensFrom_lineBreak {v : CodeUnit} (hv : v.isLineBreak = true) :
    ∃ t : Token, t.kind = .newLine ∧ tokensFrom true .normal m offset (v :: rest)
      = t :: tokensFrom true .normal ⟨false, true⟩ (offset + breakLength (v :: rest))
          ((v :: rest).drop (breakLength (v :: rest))) := by
  have hkind : (Lexeme.read .normal v rest).kind = .newLine := by
    rw [Lexeme.read_lineBreak hv]
    rfl
  have hne : TokenKind.newLine ≠ .comment := by decide
  refine ⟨(Lexeme.read .normal v rest).toToken m offset, hkind, ?_⟩
  rw [tokensFrom]
  simp only [hkind, hne, false_and, if_false, LineMark.after_lineBreak hkind]
  rw [Lexeme.read_lineBreak hv]
  rfl

/-- A kept comment is taken out of the list. -/
theorem withoutComments_comment :
    Token.withoutComments false (tokensFrom true .normal m offset (0x25 :: rest))
      = Token.withoutComments true (tokensFrom true .normal (m.after (.ofComment rest))
          (offset + (Lexeme.ofComment rest).length) (rest.dropWhile (!·.isLineBreak))) := by
  rw [tokensFrom_comment, Token.withoutComments]
  exact if_pos rfl

/-- A line break right behind a comment is taken out with it. -/
theorem withoutComments_lineBreak {v : CodeUnit} (hv : v.isLineBreak = true) :
    Token.withoutComments true (tokensFrom true .normal m offset (v :: rest))
      = Token.withoutComments false (tokensFrom true .normal ⟨false, true⟩
          (offset + breakLength (v :: rest)) ((v :: rest).drop (breakLength (v :: rest)))) := by
  obtain ⟨t, hk, htokens⟩ := tokensFrom_lineBreak m offset rest hv
  rw [htokens, Token.withoutComments, if_neg (by simp [hk]), if_pos ⟨rfl, hk⟩]

/-- Where comments are kept and taken out of the list, and where they are dropped, the tokens are
the same up to the end of the text. -/
theorem sameToEnd_tokensFrom (mode : Mode) (t : Text) :
    Token.SameToEnd (Token.withoutComments false (tokensFrom true mode m offset t))
      (tokensFrom false mode m offset t) := by
  -- Over the lexemes as they are read where comments are dropped.
  fun_induction tokensFrom false mode m offset t with
  | case1 mode m offset =>
    rw [tokensFrom, Token.withoutComments_cons (by simp [Token.atEnd, Lexeme.toToken])]
    exact Token.sameToEnd_atEnd m m offset
  | case2 mode m offset u rest x hc n ih =>
    obtain ⟨rfl, rfl⟩ := Lexeme.eq_normal_of_kind_comment hc.1
    have hafter : ((0x25 : CodeUnit) :: rest).drop x.length = rest.dropWhile (!·.isLineBreak) :=
      Lexeme.drop_length_ofComment rest
    have hdrop : ((0x25 : CodeUnit) :: rest).drop n
        = (((0x25 : CodeUnit) :: rest).drop x.length).drop
            (breakLength (((0x25 : CodeUnit) :: rest).drop x.length)) := by
      rw [List.drop_drop]
    have hoffset : offset + n = offset + x.length
        + breakLength (((0x25 : CodeUnit) :: rest).drop x.length) := by
      rw [Nat.add_assoc]
    rw [withoutComments_comment]
    show Token.SameToEnd (Token.withoutComments true
      (tokensFrom true .normal (m.after x) (offset + x.length) _)) _
    rw [hdrop, hoffset, hafter] at ih ⊢
    cases hrest : rest.dropWhile (!·.isLineBreak) with
    | nil =>
      -- The comment ends the text; its line is the one that the last token stands on.
      show Token.SameToEnd (Token.withoutComments true (tokensFrom true .normal _ _ []))
        (tokensFrom false .normal _ _ [])
      rw [tokensFrom, tokensFrom]
      exact Token.sameToEnd_atEnd _ _ _
    | cons v after =>
      have hv := Lexeme.isLineBreak_of_dropWhile_eq hrest
      have hpos : 0 < breakLength (v :: after) := Lexeme.breakLength_pos hv after
      rw [hrest, LineMark.afterComment_of_pos hpos] at ih
      rw [withoutComments_lineBreak _ _ _ hv, LineMark.afterComment_of_pos hpos]
      exact ih
  | case3 mode m offset u rest x hc ih =>
    have hkind : x.kind ≠ .comment := fun h => hc ⟨h, rfl⟩
    rw [tokensFrom]
    simp only [Bool.true_eq_false, and_false, if_false]
    rw [Token.withoutComments_cons hkind]
    exact ih.cons _

end Text

/-- Dropping comments while scanning gives the token list that scanning with comments gives, without
its comments and the line breaks right behind them, but for what the end-of-file token says of the
line it stands on. -/
theorem Text.tokens_drop_comments (source : Text) :
    ∃ before last last',
      Token.withoutComments false (source.tokens true) = before ++ [last] ∧
        source.tokens false = before ++ [last'] ∧ last.kind = .endOfFile ∧
        last' = { last with flags := { last.flags with
          atLineStart := last'.flags.atLineStart
          afterBreak := last'.flags.afterBreak } } := by
  rw [tokens_eq_tokensFrom, tokens_eq_tokensFrom]
  exact sameToEnd_tokensFrom {} 0 .normal source

/-! ## Where comments are dropped -/

/-- The offsets of the comments that a scanner drops on its way to the end of its text. -/
def Scanner.droppedComments (s : Scanner) : List Nat :=
  match _ : s.rest with
  | [] => []
  | u :: rest =>
    let lexeme := Lexeme.read s.mode u rest
    if lexeme.kind = .comment ∧ s.keepComments = false then
      s.place.offset :: droppedComments (s.skipComment lexeme.length)
    else droppedComments (s.emit lexeme)
  termination_by s.rest.length
  decreasing_by
    · exact Scanner.length_rest_skipComment_lt _ (Lexeme.length_read_pos _ _ _) ‹_›
    · exact Scanner.length_rest_emit_lt (Lexeme.length_read_pos _ _ _) ‹_›

/-- The offsets of the comments in a text that stands at an offset and is read in the given mode. -/
def Text.commentsFrom (mode : Mode) (offset : Nat) : Text → List Nat
  | [] => []
  | u :: rest =>
    let x := Lexeme.read mode u rest
    if x.kind = .comment then
      let n := x.length + Text.breakLength ((u :: rest).drop x.length)
      offset :: commentsFrom .normal (offset + n) ((u :: rest).drop n)
    else commentsFrom x.mode (offset + x.length) ((u :: rest).drop x.length)
  termination_by t => t.length
  decreasing_by
    all_goals
      have := Lexeme.length_read_pos mode u rest
      simp only [List.length_drop, List.length_cons]
      omega

namespace Scanner

theorem droppedComments_of_rest_cons {s : Scanner} {u : CodeUnit} {rest : Text}
    (h : s.rest = u :: rest) (hkeep : s.keepComments = false) :
    s.droppedComments = if (Lexeme.read s.mode u rest).kind = .comment then
        s.place.offset :: (s.skipComment (Lexeme.read s.mode u rest).length).droppedComments
      else (s.emit (Lexeme.read s.mode u rest)).droppedComments := by
  rw [droppedComments.eq_def]
  split
  · next heq => exact absurd (h.symm.trans heq) (by simp)
  · next u' rest' heq =>
    obtain ⟨rfl, rfl⟩ := List.cons.inj (h.symm.trans heq)
    simp only [hkeep, and_true]

/-- The comments that a scanner drops are those of the text that it has left. -/
theorem droppedComments_eq_commentsFrom (s : Scanner) (h : s.mode.Agrees s.rest)
    (hkeep : s.keepComments = false) :
    s.droppedComments = s.rest.commentsFrom s.mode s.place.offset := by
  induction hn : s.rest.length using Nat.strong_induction_on generalizing s with
  | _ n ih =>
    subst hn
    cases hr : s.rest with
    | nil =>
      rw [droppedComments.eq_def, Text.commentsFrom]
      split
      · rfl
      · next heq => exact absurd (hr.symm.trans heq) (by simp)
    | cons u rest =>
      have hfits : (Lexeme.read s.mode u rest).Fits s.rest := hr ▸ Lexeme.fits_read (hr ▸ h)
      have hpos := Lexeme.length_read_pos s.mode u rest
      rw [droppedComments_of_rest_cons hr hkeep, Text.commentsFrom]
      split
      · next hc =>
        obtain ⟨hoff, hrest⟩ := skipComment_of_not_cuts hfits.length_le hfits.not_cuts
        rw [ih _ (length_rest_skipComment_lt _ hpos hr) (s.skipComment _) trivial hkeep rfl, hoff,
          hrest, hr]
        rfl
      · next hc =>
        obtain ⟨hoff, hrest, -⟩ := emit_of_fits hfits
        have hagrees : (s.emit (Lexeme.read s.mode u rest)).mode.Agrees
            (s.emit (Lexeme.read s.mode u rest)).rest := by
          rw [hrest]
          exact hfits.agrees
        rw [ih _ (length_rest_emit_lt hpos hr) _ hagrees hkeep rfl, hoff, hrest, hr]
        rfl

end Scanner

/-- The comments of a text are where they are among the tokens when comments are kept. -/
theorem Text.commentsFrom_eq (m : LineMark) (mode : Mode) (offset : Nat) (t : Text) :
    t.commentsFrom mode offset
      = ((t.tokensFrom true mode m offset).filter (·.kind == .comment)).map (·.start) := by
  fun_induction Text.commentsFrom mode offset t generalizing m with
  | case1 mode offset =>
    rw [tokensFrom]
    rfl
  | case2 mode offset u rest x hc n ih =>
    obtain ⟨rfl, rfl⟩ := Lexeme.eq_normal_of_kind_comment hc
    have hafter : ((0x25 : CodeUnit) :: rest).drop x.length = rest.dropWhile (!·.isLineBreak) :=
      Lexeme.drop_length_ofComment rest
    have hoffset : offset + n = offset + (Lexeme.ofComment rest).length
        + breakLength (((0x25 : CodeUnit) :: rest).drop x.length) := by
      rw [Nat.add_assoc]
      rfl
    rw [← List.drop_drop, hoffset, hafter] at ih
    rw [tokensFrom_comment, List.filter_cons_of_pos (by rfl), List.map_cons, ← List.drop_drop,
      hoffset, hafter]
    refine congrArg (offset :: ·) ?_
    -- The token behind the comment is a line break or the end of the text.
    cases hrest : rest.dropWhile (!·.isLineBreak) with
    | nil => simp [commentsFrom, tokensFrom, breakLength, Token.atEnd, Lexeme.toToken]
    | cons v after =>
      obtain ⟨t, hk, htokens⟩ := tokensFrom_lineBreak (m.after (.ofComment rest))
        (offset + (Lexeme.ofComment rest).length) after
        (Lexeme.isLineBreak_of_dropWhile_eq hrest)
      rw [hrest] at ih
      rw [htokens, List.filter_cons_of_neg (by simp [hk]), ih ⟨false, true⟩]
  | case3 mode offset u rest x hc ih =>
    have hkind : (x.toToken m offset).kind ≠ .comment := hc
    rw [tokensFrom]
    simp only [Bool.true_eq_false, and_false, if_false]
    rw [List.filter_cons_of_neg (by simpa using hkind), ih (m.after x)]

/-- A scanner drops comments just where it has comments for tokens when it keeps them. -/
theorem Text.droppedComments_eq (source : Text) :
    (Scanner.ofText source).droppedComments
      = ((source.tokens true).filter (·.kind == .comment)).map (·.start) := by
  rw [Scanner.droppedComments_eq_commentsFrom (.ofText source) trivial rfl, tokens_eq_tokensFrom]
  exact commentsFrom_eq {} .normal 0 source

end LatexMarkdown
