import LatexMarkdown.Proofs.Likeness.Relation
import Mathlib.Data.List.DropRight
/-!
  Arguments and mathematics in two token lists that are alike.

  First the readers that take a list: what they read is related, and so is what they leave
  (`Likeness.Leaves`).  Then cursors.  `Likeness.Along` says that what is ahead of two cursors is
  alike; `Likeness.At`, that the same token is current; `Likeness.Behind`, that an argument behind
  the one is an argument behind the other.  A reader goes from one of these to another.
-/
namespace LatexMarkdown.Parse.Likeness

variable {R : Likeness} {b : Bool} {l l' : List Token}

/-! ## Lists -/

/-- So many tokens of two lists were read, and the last one of them may take an argument. -/
structure Leaves (R : Likeness) (l l' : List Token) (n n' : Nat) : Prop where
  pairs : R.Pairs false (l.drop n) (l'.drop n')
  closing : ∃ t : Token, t.mayTake = true ∧ t :: l.drop n <:+ l

theorem Leaves.cons {n n' : Nat} (h : R.Leaves l l' n n') (t t' : Token) :
    R.Leaves (t :: l) (t' :: l') (n + 1) (n' + 1) := by
  obtain ⟨c, hc, hsuffix⟩ := h.closing
  exact ⟨h.pairs, c, hc, hsuffix.trans (List.suffix_cons t l)⟩

theorem Leaves.cons_left {n n' : Nat} (h : R.Leaves l l' n n') (t : Token) :
    R.Leaves (t :: l) l' (n + 1) n' := by
  obtain ⟨c, hc, hsuffix⟩ := h.closing
  exact ⟨h.pairs, c, hc, hsuffix.trans (List.suffix_cons t l)⟩

/-- The closing token was read. -/
theorem Leaves.one {t t' : Token} (h : R.Pairs false l l') (ht : t.mayTake = true) :
    R.Leaves (t :: l) (t' :: l') 1 1 :=
  ⟨h, t, ht, List.suffix_rfl⟩

theorem rel_optionalArgumentLength? (h : R.Pairs b l l') (depth : Int) :
    Option.Rel (R.Leaves l l') (optionalArgumentLength? depth l)
      (optionalArgumentLength? depth l') := by
  induction h generalizing depth with
  | nil => exact .none
  | @same t t' l l' hs hend hcomment hrest ih =>
    rw [optionalArgumentLength?, optionalArgumentLength?, hs.kind, hs.isBlankLine]
    split
    · exact .none
    · have hdepth : ∀ d : Int, Option.Rel (R.Leaves (t :: l) (t' :: l'))
          (if t.kind = .bracketClose ∧ d ≤ 0 then some 1
            else (optionalArgumentLength? d l).map (· + 1))
          (if t.kind = .bracketClose ∧ d ≤ 0 then some 1
            else (optionalArgumentLength? d l').map (· + 1)) := by
        intro d
        split
        · next hclose =>
          exact .some (Leaves.one hrest (by rw [Token.mayTake, hclose.1]))
        · exact (ih d).map fun n n' hn => hn.cons t t'
      exact hdepth _
  | @comment t l l' hthin hk hrest ih =>
    have hblank : t.isBlankLine = false := by simp [Token.isBlankLine, hk]
    rw [optionalArgumentLength?]
    simp only [hk, hblank, reduceCtorEq, Bool.false_eq_true, or_self, if_false, false_and]
    exact (ih depth).map_left fun n n' hn => hn.cons_left t
  | @lineBreak t l l' hthin hk hblank _ hrest ih =>
    rw [optionalArgumentLength?]
    simp only [hk, hblank, reduceCtorEq, Bool.false_eq_true, or_self, if_false, false_and]
    exact (ih depth).map_left fun n n' hn => hn.cons_left t

/-- What the token stands for in a group that is taken as it is spelled. -/
theorem Same.groupPiece {t t' : Token} (hs : R.Same t t') :
    R.exact (if t.kind = .text ∧ t.flags.escaped then t.text else R.ctx.source.raw t)
      (if t'.kind = .text ∧ t'.flags.escaped then t'.text else R.ctx'.source.raw t') := by
  rw [hs.kind, hs.escaped]
  split
  · exact hs.text
  · exact hs.raw

/-- What a reader of a list answers with: a text, and how many tokens it took. -/
abbrev LeavesText (R : Likeness) (l l' : List Token) (x x' : Text × Nat) : Prop :=
  R.text x.1 x'.1 ∧ R.Leaves l l' x.2 x'.2

theorem rel_groupText? (h : R.Pairs b l l') (depth : Nat) :
    Option.Rel (R.LeavesText l l') (groupText? R.ctx.source depth l)
      (groupText? R.ctx'.source depth l') := by
  induction h generalizing depth with
  | nil => exact .none
  | @same t t' l l' hs hend hcomment hrest ih =>
    have hmore : ∀ depth, Option.Rel (R.LeavesText (t :: l) (t' :: l'))
        ((groupText? R.ctx.source depth l).map fun x =>
          ((if t.kind = .text ∧ t.flags.escaped then t.text else R.ctx.source.raw t) ++ x.1, x.2 + 1))
        ((groupText? R.ctx'.source depth l').map fun x =>
          ((if t'.kind = .text ∧ t'.flags.escaped then t'.text else R.ctx'.source.raw t') ++ x.1,
            x.2 + 1)) := fun depth =>
      (ih depth).map fun x x' hx =>
        ⟨R.text_append (R.text_of_exact hs.groupPiece) hx.1, hx.2.cons t t'⟩
    have hclose : t.kind = .groupClose → R.Leaves (t :: l) (t' :: l') 1 1 := fun hk =>
      .one hrest (by rw [Token.mayTake, hk])
    simp only [groupText?]
    generalize (fun x : Text × Nat => ((if t.kind = .text ∧ t.flags.escaped then t.text
      else R.ctx.source.raw t) ++ x.1, x.2 + 1)) = f at hmore ⊢
    generalize (fun x : Text × Nat => ((if t'.kind = .text ∧ t'.flags.escaped then t'.text
      else R.ctx'.source.raw t') ++ x.1, x.2 + 1)) = f' at hmore ⊢
    rw [hs.kind]
    cases hk : t.kind with
    | endOfFile => exact absurd hk hend
    | groupOpen => exact hmore (depth + 1)
    | groupClose =>
      cases depth with
      | zero => exact .some ⟨R.text_nil, hclose hk⟩
      | succ depth => exact hmore depth
    | _ => exact hmore depth
  | @comment t l l' hthin hk hrest ih =>
    simp only [groupText?, hk, Source.raw, reduceCtorEq, false_and, if_true, if_false,
      List.nil_append]
    exact (ih depth).map_left fun x x' hx => ⟨hx.1, hx.2.cons_left t⟩
  | @lineBreak t l l' hthin hk hblank hspelling hrest ih =>
    simp only [groupText?, hk, Source.raw, reduceCtorEq, false_and, if_false]
    exact (ih depth).map_left fun x x' hx => ⟨R.text_append hspelling hx.1, hx.2.cons_left t⟩

/-- A group without comments says the same in both lists. -/
theorem rel_groupText?_of_whole (h : R.Pairs false l l') {depth : Nat}
    (hwhole : groupCommented depth l = false) :
    Option.Rel (fun x x' => R.exact x.1 x'.1) (groupText? R.ctx.source depth l)
      (groupText? R.ctx'.source depth l') := by
  induction l generalizing l' depth with
  | nil =>
    cases h
    exact .none
  | cons t l ih =>
    cases h with
    | comment _ hk => simp [groupCommented, hk] at hwhole
    | @same _ t' _ l' hs hend _ hrest =>
      have hmore : ∀ depth, groupCommented depth l = false → Option.Rel (fun x x' => R.exact x.1 x'.1)
          ((groupText? R.ctx.source depth l).map fun x =>
            ((if t.kind = .text ∧ t.flags.escaped then t.text else R.ctx.source.raw t) ++ x.1, x.2 + 1))
          ((groupText? R.ctx'.source depth l').map fun x =>
            ((if t'.kind = .text ∧ t'.flags.escaped then t'.text else R.ctx'.source.raw t') ++ x.1,
              x.2 + 1)) := fun depth hwhole =>
        (ih hrest hwhole).map fun x x' hx => R.exact_append hs.groupPiece hx
      simp only [groupText?]
      generalize (fun x : Text × Nat => ((if t.kind = .text ∧ t.flags.escaped then t.text
        else R.ctx.source.raw t) ++ x.1, x.2 + 1)) = f at hmore ⊢
      generalize (fun x : Text × Nat => ((if t'.kind = .text ∧ t'.flags.escaped then t'.text
        else R.ctx'.source.raw t') ++ x.1, x.2 + 1)) = f' at hmore ⊢
      rw [hs.kind]
      cases hk : t.kind <;> simp only [groupCommented, hk, reduceCtorEq] at hwhole
      case endOfFile => exact absurd hk hend
      case groupClose =>
        cases depth with
        | zero => exact .some R.exact_nil
        | succ depth => exact hmore depth hwhole
      all_goals exact hmore _ hwhole

/-- As `rel_groupText?`, for what is read up to a closing token.  Neither a comment nor a line break
closes anything. -/
theorem rel_textUpTo? (closes closes' : Token → Bool) (h : R.Pairs b l l')
    (hcloses : ∀ t t', R.Same t t' → closes' t' = closes t)
    (hopen : ∀ t : Token, t.kind = .comment ∨ t.kind = .newLine → closes t = false) :
    Option.Rel (fun x x' => R.text x.1 x'.1 ∧ R.Pairs false (l.drop x.2) (l'.drop x'.2))
      (textUpTo? R.ctx.source closes l) (textUpTo? R.ctx'.source closes' l') := by
  induction h with
  | nil => exact .none
  | @same t t' l l' hs hend hcomment hrest ih =>
    rw [textUpTo?, textUpTo?, hs.kind, if_neg hend, if_neg hend, hcloses t t' hs]
    split
    · exact .some ⟨R.text_nil, hrest⟩
    · exact ih.map fun x x' hx => ⟨R.text_append (R.text_of_exact hs.raw) hx.1, hx.2⟩
  | @comment t l l' hthin hk hrest ih =>
    rw [textUpTo?, if_neg (by rw [hk]; decide), hopen t (.inl hk)]
    refine ih.map_left fun x x' hx => ⟨?_, hx.2⟩
    rw [Source.raw, if_pos hk]
    exact hx.1
  | @lineBreak t l l' hthin hk hblank hspelling hrest ih =>
    rw [textUpTo?, if_neg (by rw [hk]; decide), hopen t (.inr hk)]
    refine ih.map_left fun x x' hx => ⟨?_, hx.2⟩
    rw [Source.raw, if_neg (by rw [hk]; decide)]
    exact R.text_append hspelling hx.1

theorem agree_readDollars (h : R.Pairs b l l') (opener opener' : Marker) (k k' : Nat)
    {pieces pieces' : List Text} (hp : R.text pieces.reverse.flatten pieces'.reverse.flatten) :
    Agree (fun x x' => R.pushed x.1 x'.1 ∧ R.Pairs false (l.drop x.2) (l'.drop x'.2))
      (readDollars R.ctx.source opener k pieces l)
      (readDollars R.ctx'.source opener' k' pieces' l') := by
  induction h generalizing opener opener' k k' pieces pieces' with
  | nil => exact .error _ _
  | @same t t' l l' hs hend hcomment hrest ih =>
    have hname : t.kind = .mathInline ∨ t.kind = .mathDisplay → t'.text = t.text := fun hk =>
      hs.name (by rcases hk with hk | hk <;> rw [hk] <;> decide)
        (by rcases hk with hk | hk <;> rw [hk] <;> decide)
    have hdollar : (t'.kind = .mathInline ∧ t'.text = "$") ↔ (t.kind = .mathInline ∧ t.text = "$") := by
      rw [hs.kind]
      exact and_congr_right fun hk => by rw [hname (.inl hk)]
    have hdollars : (t'.kind = .mathDisplay ∧ t'.text = "$$")
        ↔ (t.kind = .mathDisplay ∧ t.text = "$$") := by
      rw [hs.kind]
      exact and_congr_right fun hk => by rw [hname (.inr hk)]
    have hend' : t'.kind ≠ .endOfFile := by rw [hs.kind]; exact hend
    rw [readDollars, readDollars, if_neg hend, if_neg hend']
    simp only [hdollar, hdollars]
    split
    · exact .ok ⟨R.pushed_mathSpan _ _ _ _ hp, hrest⟩
    split
    · have hnil : R.text ([] : List Text).reverse.flatten ([] : List Text).reverse.flatten := R.text_nil
      refine (ih _ _ _ _ hnil).bind fun x x' hx => ?_
      exact .ok ⟨R.pushed_append (R.pushed_mathSpan _ _ _ _ hp) hx.1, hx.2⟩
    · refine (ih _ _ _ _ ?_).bind fun x x' hx => .ok ⟨hx.1, hx.2⟩
      simpa using R.text_append hp (R.text_of_exact hs.raw)
  | @comment t l l' hthin hk hrest ih =>
    rw [readDollars]
    simp only [hk, reduceCtorEq, false_and, if_false]
    refine (ih opener opener' (k + 1) k' ?_).map_left fun x x' hx => hx
    simpa [Source.raw, hk] using hp
  | @lineBreak t l l' hthin hk hblank hspelling hrest ih =>
    rw [readDollars]
    simp only [hk, reduceCtorEq, false_and, if_false]
    refine (ih opener opener' (k + 1) k' ?_).map_left fun x x' hx => hx
    simpa [Source.raw, hk] using R.text_append hp hspelling

/-! ## Cursors -/

/-- What is ahead of two cursors is alike. -/
structure Along (R : Likeness) (b : Bool) (c c' : Cursor) : Prop where
  pairs : R.Pairs b c.ahead c'.ahead
  terminated : c.Terminated
  terminated' : c'.Terminated
  tame : R.thin → Tame R.counts c.remaining

/-- What is ahead is alike, and an argument comes next in both lists, or in none. -/
structure Behind (R : Likeness) (c c' : Cursor) : Prop extends R.Along false c c' where
  apart : R.thin → opensBehindComment false c.ahead = false

/-- What is ahead is alike, and so is the current token. -/
structure At (R : Likeness) (c c' : Cursor) : Prop extends R.Along false c c' where
  meets : R.Meets c.ahead c'.ahead

variable {c c' d d' : Cursor} {n n' : Nat} {b' : Bool}

theorem remaining_suffix (hd : c.Reaches d) : d.remaining <:+ c.remaining := by
  obtain ⟨before, hbefore⟩ := hd.ahead_suffix
  exact ⟨before, by rw [Cursor.remaining, Cursor.remaining, hd.final_eq, ← hbefore, List.append_assoc]⟩

/-- Further on what is ahead is alike wherever the lists are. -/
theorem Along.reach (h : R.Along b c c') (hd : c.Reaches d) (hd' : c'.Reaches d')
    (hp : R.Pairs b' d.ahead d'.ahead) : R.Along b' d d' where
  pairs := hp
  terminated := hd.terminated h.terminated
  terminated' := hd'.terminated h.terminated'
  tame hthin := by
    obtain ⟨before, hbefore⟩ := remaining_suffix hd
    exact (hbefore ▸ h.tame hthin).of_append

/-- Behind a token that may take an argument there is none that a comment keeps from it. -/
theorem Along.behind (h : R.Along b c c') (hd : c.Reaches d) (hd' : c'.Reaches d')
    (hp : R.Pairs false d.ahead d'.ahead) {t : Token} (ht : t.mayTake = true)
    (hsuffix : t :: d.ahead <:+ c.ahead) : R.Behind d d' where
  toAlong := h.reach hd hd' hp
  apart hthin := by
    obtain ⟨before, hbefore⟩ := hsuffix
    have htame := h.tame hthin
    rw [Cursor.remaining, ← hbefore, List.append_assoc, List.cons_append] at htame
    rw [← opensBehindComment_append_end false d.ahead h.terminated]
    exact htame.of_append.apart.1 ht

/-- The lists are left where a reader of them stops. -/
theorem Along.leave (h : R.Along b c c') (hl : R.Leaves c.ahead c'.ahead n n') :
    R.Behind (c.advanceBy n) (c'.advanceBy n') := by
  have hahead := Cursor.ahead_advanceBy h.pairs.kind_ne_endOfFile.1 h.terminated n
  have hahead' := Cursor.ahead_advanceBy h.pairs.kind_ne_endOfFile.2 h.terminated' n'
  obtain ⟨t, ht, hsuffix⟩ := hl.closing
  exact h.behind (.advanceBy c n) (.advanceBy c' n') (by rw [hahead, hahead']; exact hl.pairs) ht
    (by rw [hahead]; exact hsuffix)

/-- As `Along.leave`, where nothing is known of the last token that was read. -/
theorem Along.drop (h : R.Along b c c') (hp : R.Pairs b' (c.ahead.drop n) (c'.ahead.drop n')) :
    R.Along b' (c.advanceBy n) (c'.advanceBy n') := by
  refine h.reach (.advanceBy c n) (.advanceBy c' n') ?_
  rw [Cursor.ahead_advanceBy h.pairs.kind_ne_endOfFile.1 h.terminated,
    Cursor.ahead_advanceBy h.pairs.kind_ne_endOfFile.2 h.terminated']
  exact hp

/-- Two cursors at the same token: they have come to the end, or stand before it in the list. -/
theorem At.cases (h : R.At c c') :
    (c.current.kind = .endOfFile ∧ c'.current.kind = .endOfFile ∧ c.ahead = [] ∧ c'.ahead = []) ∨
      (c.current.kind ≠ .endOfFile ∧ R.Same c.current c'.current ∧
        (R.thin → c.current.kind ≠ .comment) ∧ c.ahead = c.current :: c.ahead.tail ∧
        c'.ahead = c'.current :: c'.ahead.tail ∧ R.Pairs false c.ahead.tail c'.ahead.tail) := by
  obtain ⟨ha, ha'⟩ | ⟨t, t', k, k', ha, ha', hs, hend, hcomment, hrest⟩ := h.meets
  · refine .inl ⟨?_, ?_, ha, ha'⟩
    · rw [Cursor.current_of_ahead_nil ha]
      exact h.terminated
    · rw [Cursor.current_of_ahead_nil ha']
      exact h.terminated'
  · refine .inr ?_
    rw [Cursor.current_of_ahead ha, Cursor.current_of_ahead ha', ha, ha']
    exact ⟨hend, hs, hcomment, rfl, rfl, hrest⟩

namespace At

theorem kind (h : R.At c c') : c'.current.kind = c.current.kind := by
  obtain ⟨hk, hk', -, -⟩ | ⟨-, hs, -⟩ := h.cases
  · rw [hk, hk']
  · exact hs.kind

theorem same (h : R.At c c') (hk : c.current.kind ≠ .endOfFile) : R.Same c.current c'.current := by
  obtain ⟨hend, -⟩ | ⟨-, hs, -⟩ := h.cases
  · exact absurd hend hk
  · exact hs

theorem kind_ne_comment (h : R.At c c') (hthin : R.thin) : c.current.kind ≠ .comment := by
  obtain ⟨hend, -⟩ | ⟨-, -, hcomment, -⟩ := h.cases
  · rw [hend]
    decide
  · exact hcomment hthin

/-- What comes behind the current token. -/
theorem pairs_tail (h : R.At c c') : R.Pairs false c.ahead.tail c'.ahead.tail := by
  obtain ⟨-, -, ha, ha'⟩ | ⟨-, -, -, -, -, hrest⟩ := h.cases
  · rw [ha, ha']
    exact .nil false
  · exact hrest

/-- The tokens of an argument or of mathematics are left, behind the one that opens it. -/
theorem drop (h : R.At c c') (hk : c.current.kind ≠ .endOfFile)
    (hp : R.Pairs b' (c.ahead.tail.drop n) (c'.ahead.tail.drop n')) :
    R.Along b' (c.advanceBy (n + 1)) (c'.advanceBy (n' + 1)) := by
  obtain ⟨hend, -⟩ | ⟨-, -, -, ha, ha', -⟩ := h.cases
  · exact absurd hend hk
  · refine h.toAlong.drop ?_
    rw [ha, ha']
    exact hp

theorem leave (h : R.At c c') (hk : c.current.kind ≠ .endOfFile)
    (hl : R.Leaves c.ahead.tail c'.ahead.tail n n') :
    R.Behind (c.advanceBy (n + 1)) (c'.advanceBy (n' + 1)) := by
  obtain ⟨hend, -⟩ | ⟨-, -, -, ha, ha', -⟩ := h.cases
  · exact absurd hend hk
  · refine h.toAlong.leave ?_
    rw [ha, ha']
    exact hl.cons _ _

theorem advance (h : R.At c c') : R.Along false c.advance c'.advance := by
  have hdrop : R.Pairs false (c.ahead.drop 1) (c'.ahead.drop 1) := by
    rw [List.drop_one, List.drop_one]
    exact h.pairs_tail
  exact h.toAlong.drop hdrop

theorem behind (h : R.At c c') (ht : c.current.mayTake = true) : R.Behind c.advance c'.advance := by
  have hk : c.current.kind ≠ .endOfFile := by
    intro hk
    rw [Token.mayTake, hk] at ht
    cases ht
  obtain ⟨hend, -⟩ | ⟨-, -, -, ha, ha', hrest⟩ := h.cases
  · exact absurd hend hk
  · have hl : R.Leaves c.ahead c'.ahead 1 1 := by
      rw [ha, ha']
      exact .one hrest ht
    exact h.toAlong.leave hl

end At

/-- Where nothing is left out, cursors always stand at the same token. -/
theorem Along.at (hthin : ¬ R.thin) (h : R.Along b c c') : R.At c c' where
  pairs := (h.pairs.meets hthin).pairs
  terminated := h.terminated
  terminated' := h.terminated'
  tame := h.tame
  meets := h.pairs.meets hthin

/-! ## Arguments -/

/-- Nothing opens behind a comment in the one list, so nothing opens where the other lacks it. -/
theorem Pairs.not_opens (h : R.Pairs b l l') (ho : opensBehindComment true l = false) :
    ∀ t ∈ (l'.dropWhile Token.isArgumentSpacing).head?,
      t.kind ≠ .groupOpen ∧ t.kind ≠ .bracketOpen := by
  induction h with
  | nil => simp
  | @same t t' l l' hs hend hcomment hrest ih =>
    rw [opensBehindComment] at ho
    rw [List.dropWhile_cons, hs.isArgumentSpacing]
    split at ho
    · next hk =>
      have hspacing : t.isArgumentSpacing = false := by
        simp [Token.isArgumentSpacing, Token.isBlankText, hk]
      simp [hspacing, hs.kind, hk]
    · split at ho
      · next hspacing =>
        rw [if_pos hspacing]
        exact ih ho
      · next hspacing =>
        rw [if_neg hspacing]
        simpa [hs.kind] using ho
  | comment hthin hk hrest ih =>
    rw [opensBehindComment, if_pos hk] at ho
    exact ih ho
  | @lineBreak t l l' hthin hk hblank _ hrest ih =>
    have hspacing : t.isArgumentSpacing = true := by
      simp [Token.isArgumentSpacing, hk, hblank]
    rw [opensBehindComment, if_neg (by rw [hk]; decide), if_pos hspacing] at ho
    exact ih ho

/-- Behind the space before an argument the same token stands in both lists, unless it is a comment
in the one and opens no argument in the other. -/
theorem Pairs.meets_dropWhile (h : R.Pairs b l l')
    (ho : R.thin → opensBehindComment false l = false) :
    R.Meets (l.dropWhile Token.isArgumentSpacing) (l'.dropWhile Token.isArgumentSpacing) ∨
      (∀ t ∈ (l.dropWhile Token.isArgumentSpacing).head?, t.kind = .comment) ∧
        ∀ t ∈ (l'.dropWhile Token.isArgumentSpacing).head?,
          t.kind ≠ .groupOpen ∧ t.kind ≠ .bracketOpen := by
  induction h with
  | nil => exact .inl (.inl ⟨rfl, rfl⟩)
  | @same t t' l l' hs hend hcomment hrest ih =>
    rw [List.dropWhile_cons, List.dropWhile_cons, hs.isArgumentSpacing]
    split
    · next hspacing =>
      refine ih fun hthin => ?_
      have ho := ho hthin
      rwa [opensBehindComment, if_neg (hcomment hthin), if_pos hspacing] at ho
    · exact .inl (.inr ⟨t, t', l, l', rfl, rfl, hs, hend, hcomment, hrest⟩)
  | @comment t l l' hthin hk hrest ih =>
    have hspacing : t.isArgumentSpacing = false := by
      simp [Token.isArgumentSpacing, Token.isBlankText, hk]
    have ho := ho hthin
    rw [opensBehindComment, if_pos hk] at ho
    refine .inr ⟨?_, hrest.not_opens ho⟩
    simp [hspacing, hk]
  | @lineBreak t l l' hthin hk hblank _ hrest ih =>
    have hspacing : t.isArgumentSpacing = true := by
      simp [Token.isArgumentSpacing, hk, hblank]
    rw [List.dropWhile_cons, if_pos hspacing]
    refine ih fun hthin => ?_
    have ho := ho hthin
    rwa [opensBehindComment, if_neg (by rw [hk]; decide), if_pos hspacing] at ho

theorem startArgument?_eq (kind : TokenKind) (c : Cursor) :
    startArgument? kind c
      = if (c.advanceBy (c.countWhile Token.isArgumentSpacing)).current.kind = kind then
          some (c.advanceBy (c.countWhile Token.isArgumentSpacing))
        else none := by
  rw [startArgument?, Cursor.current_advanceBy_countWhile fun _ =>
    Token.kind_ne_endOfFile_of_isArgumentSpacing]

/-- An argument is found in both lists, or in none. -/
theorem rel_startArgument? (h : R.Behind c c') {kind : TokenKind}
    (hkind : kind = .groupOpen ∨ kind = .bracketOpen) :
    Option.Rel R.At (startArgument? kind c) (startArgument? kind c') := by
  have hspacing : ∀ t : Token, t.isArgumentSpacing = true → t.kind ≠ .endOfFile := fun _ =>
    Token.kind_ne_endOfFile_of_isArgumentSpacing
  have hahead := Cursor.ahead_skipWhile hspacing c
  have hahead' := Cursor.ahead_skipWhile hspacing c'
  rw [startArgument?_eq, startArgument?_eq]
  have hreach := Cursor.Reaches.advanceBy c (c.countWhile Token.isArgumentSpacing)
  have hreach' := Cursor.Reaches.advanceBy c' (c'.countWhile Token.isArgumentSpacing)
  generalize c.advanceBy (c.countWhile Token.isArgumentSpacing) = d at hahead hreach ⊢
  generalize c'.advanceBy (c'.countWhile Token.isArgumentSpacing) = d' at hahead' hreach' ⊢
  have hmeets := h.pairs.meets_dropWhile h.apart
  rw [← hahead, ← hahead'] at hmeets
  obtain hmeets | ⟨hcomment, hopens⟩ := hmeets
  · have hat : R.At d d' := ⟨h.toAlong.reach hreach hreach' hmeets.pairs, hmeets⟩
    rw [hat.kind]
    split
    · exact .some hat
    · exact .none
  · -- At a comment, or at the end, no argument begins, and none does in the other list.
    have hend := hreach.terminated h.terminated
    have hend' := hreach'.terminated h.terminated'
    have hk : d.current.kind ≠ kind := by
      cases ha : d.ahead with
      | nil =>
        rw [Cursor.current_of_ahead_nil ha, show d.final.kind = .endOfFile from hend]
        rcases hkind with rfl | rfl <;> decide
      | cons t rest =>
        rw [Cursor.current_of_ahead ha, hcomment t (by rw [ha]; rfl)]
        rcases hkind with rfl | rfl <;> decide
    have hk' : d'.current.kind ≠ kind := by
      cases ha : d'.ahead with
      | nil =>
        rw [Cursor.current_of_ahead_nil ha, show d'.final.kind = .endOfFile from hend']
        rcases hkind with rfl | rfl <;> decide
      | cons t rest =>
        rw [Cursor.current_of_ahead ha]
        have hopens := hopens t (by rw [ha]; rfl)
        rcases hkind with rfl | rfl
        · exact hopens.1
        · exact hopens.2
    rw [if_neg hk, if_neg hk']
    exact .none

/-- A brace or bracket that comes at once comes at once in both lists. -/
theorem Behind.at_opener (h : R.Behind c c') {kind : TokenKind}
    (hkind : kind = .groupOpen ∨ kind = .bracketOpen) :
    (c.current.kind = kind ∧ c'.current.kind = kind ∧ R.At c c') ∨
      (c.current.kind ≠ kind ∧ c'.current.kind ≠ kind) := by
  have hat : ∀ hmeets : R.Meets c.ahead c'.ahead, (c.current.kind = kind ∧ c'.current.kind = kind ∧
      R.At c c') ∨ (c.current.kind ≠ kind ∧ c'.current.kind ≠ kind) := by
    intro hmeets
    have hat : R.At c c' := ⟨h.toAlong, hmeets⟩
    rw [hat.kind]
    by_cases hk : c.current.kind = kind
    · exact .inl ⟨hk, hk, hat⟩
    · exact .inr ⟨hk, hk⟩
  have hp := h.pairs
  generalize ha : c.ahead = l at hp hat
  generalize ha' : c'.ahead = l' at hp hat
  cases hp with
  | nil => exact hat (.inl ⟨rfl, rfl⟩)
  | same hs hend hcomment hrest => exact hat (.inr ⟨_, _, _, _, rfl, rfl, hs, hend, hcomment, hrest⟩)
  | comment hthin hk hrest =>
    refine .inr ⟨?_, fun hk' => ?_⟩
    · rw [Cursor.current_of_ahead ha, hk]
      rcases hkind with rfl | rfl <;> decide
    · -- What opens an argument in the second list alone would open it behind the comment.
      have ho := h.apart hthin
      rw [ha, opensBehindComment, if_pos hk] at ho
      have hend' : c'.current.kind ≠ .endOfFile := by
        rw [hk']
        rcases hkind with rfl | rfl <;> decide
      have hhead := Cursor.ahead_eq_cons h.terminated' hend'
      have hspacing : c'.current.isArgumentSpacing = false := by
        rcases hkind with rfl | rfl <;> simp [Token.isArgumentSpacing, Token.isBlankText, hk']
      have hopens := hrest.not_opens ho c'.current (by
        rw [← ha', hhead, List.dropWhile_cons, if_neg (by rw [hspacing]; decide)]
        rfl)
      rcases hkind with rfl | rfl
      · exact hopens.1 hk'
      · exact hopens.2 hk'

theorem behind_skipOptionalArgument (h : R.Behind c c') :
    R.Behind (skipOptionalArgument c) (skipOptionalArgument c') := by
  have hstart : Option.Rel R.At (startArgument? .bracketOpen c) (startArgument? .bracketOpen c') :=
    rel_startArgument? h (.inr rfl)
  rw [skipOptionalArgument, skipOptionalArgument]
  cases ho : startArgument? .bracketOpen c with
  | none =>
    rw [ho] at hstart
    generalize startArgument? .bracketOpen c' = x at hstart ⊢
    cases hstart with
    | none => exact h
  | some opened =>
    rw [ho] at hstart
    generalize startArgument? .bracketOpen c' = x at hstart ⊢
    cases hstart with
    | @some _ opened' hat =>
      have hk : opened.current.kind ≠ .endOfFile := by
        rw [kind_of_startArgument? ho]
        decide
      have hlength := rel_optionalArgumentLength? hat.pairs_tail 0
      simp only
      generalize optionalArgumentLength? 0 opened.ahead.tail = y at hlength ⊢
      generalize optionalArgumentLength? 0 opened'.ahead.tail = y' at hlength ⊢
      cases hlength with
      | none => exact h
      | some hl => exact hat.leave hk hl

/-- What readers of an argument at these cursors answer with: its text, and the cursor behind it. -/
structure BehindText (R : Likeness) (c : Cursor) (x x' : Text × Cursor) : Prop where
  text : R.text x.1 x'.1
  exact : GroupWhole c.ahead → R.exact x.1 x'.1
  behind : R.Behind x.2 x'.2

theorem agree_startGroup (h : R.Behind c c') (owner owner' : Marker) (flaw flaw' : Flaw) :
    Agree R.At (startGroup owner flaw c) (startGroup owner' flaw' c') := by
  have hstart : Option.Rel R.At (startArgument? .groupOpen c) (startArgument? .groupOpen c') :=
    rel_startArgument? h (.inl rfl)
  rw [startGroup, startGroup]
  generalize startArgument? .groupOpen c = x at hstart ⊢
  generalize startArgument? .groupOpen c' = x' at hstart ⊢
  cases hstart with
  | none => exact .error _ _
  | some hat => exact .ok hat

/-- A group that has come open is the one behind the space of arguments. -/
theorem ahead_of_startGroup {owner : Marker} {flaw : Flaw} {opened : Cursor}
    (h : startGroup owner flaw c = .ok opened) :
    opened.ahead = c.ahead.dropWhile Token.isArgumentSpacing := by
  rw [startGroup, startArgument?_eq] at h
  split at h
  · next d hd =>
    split at hd
    · rw [← Except.ok.inj h, ← Option.some.inj hd]
      exact Cursor.ahead_skipWhile (fun _ => Token.kind_ne_endOfFile_of_isArgumentSpacing) c
    · cases hd
  · cases h

theorem agree_readGroup (h : R.Behind c c') (owner owner' : Marker) (flaw flaw' : Flaw) :
    Agree (R.BehindText c) (readGroup R.ctx.source owner flaw c)
      (readGroup R.ctx'.source owner' flaw' c') := by
  refine (agree_startGroup h owner owner' flaw flaw').bind_of fun opened opened' ho hat => ?_
  have hk : opened.current.kind ≠ .endOfFile := by
    rw [kind_of_startGroup ho]
    decide
  have htext := rel_groupText? hat.pairs_tail 0
  have hexact : groupCommented 0 opened.ahead.tail = false → _ :=
    rel_groupText?_of_whole hat.pairs_tail
  generalize groupText? R.ctx.source 0 opened.ahead.tail = x at htext hexact ⊢
  generalize groupText? R.ctx'.source 0 opened'.ahead.tail = x' at htext hexact ⊢
  cases htext with
  | none => exact .error _ _
  | some hx =>
    refine .ok ⟨hx.1, fun hwhole => ?_, hat.leave hk hx.2⟩
    cases hexact (ahead_of_startGroup ho ▸ hwhole) with
    | some hx => exact hx

theorem agree_skipGroups (owner owner' : Marker) (flaw flaw' : Flaw) (count : Nat)
    (h : R.Behind c c') :
    Agree R.Behind (skipGroups R.ctx.source owner flaw count c)
      (skipGroups R.ctx'.source owner' flaw' count c') := by
  induction count generalizing c c' with
  | zero => exact .ok h
  | succ count ih =>
    exact (agree_readGroup h owner owner' flaw flaw').bind fun x x' hx => ih hx.behind

theorem agree_skipCommand (h : R.At c c') (hk : c.current.kind = .command) (count : Nat) :
    Agree R.Behind (skipCommand R.ctx.source count c) (skipCommand R.ctx'.source count c') :=
  agree_skipGroups _ _ _ _ count (behind_skipOptionalArgument (h.behind (by rw [Token.mayTake, hk])))

/-- The count of columns behind a command has no comment in it where that is asked for. -/
theorem At.groupWhole (h : R.At c c') (hcounts : R.thin ∧ R.counts)
    (hm : c.current.isCommand "multicolumn" = true) : GroupWhole c.advance.ahead := by
  have hend : c.current.kind ≠ .endOfFile := by
    rw [Token.kind_of_isCommand hm]
    decide
  have hwhole := (h.tame hcounts.1).whole hcounts.2
  rw [Cursor.remaining_eq_cons h.terminated hend] at hwhole
  have hwhole := hwhole.1 hm
  rw [GroupWhole, Cursor.remaining, List.dropWhile_append] at hwhole
  rw [GroupWhole]
  cases hd : c.advance.ahead.dropWhile Token.isArgumentSpacing with
  | nil => rfl
  | cons t rest =>
    rw [hd] at hwhole
    exact groupCommented_of_append hwhole

/-! ## Mathematics -/

theorem agree_readMath (h : R.At c c') (hk : c.current.kind = .mathInline ∨ c.current.kind = .mathDisplay) :
    Agree (fun x x' => R.text x.1 x'.1 ∧ R.Along false x.2 x'.2) (readMath R.ctx.source c)
      (readMath R.ctx'.source c') := by
  have hend : c.current.kind ≠ .endOfFile := by rcases hk with hk | hk <;> rw [hk] <;> decide
  have hs := h.same hend
  have hname : c'.current.text = c.current.text :=
    hs.name (by rcases hk with hk | hk <;> rw [hk] <;> decide)
      (by rcases hk with hk | hk <;> rw [hk] <;> decide)
  have htext := rel_textUpTo?
    (fun t => t.kind == c.current.kind && t.text == mathCloser c.current.text)
    (fun t => t.kind == c'.current.kind && t.text == mathCloser c'.current.text) h.pairs_tail
    (fun t t' ht => by
      rw [hs.kind, hname, ht.kind]
      cases hkt : t.kind == c.current.kind with
      | false => rfl
      | true =>
        have hkt := eq_of_beq hkt
        rw [ht.name (by rw [hkt]; rcases hk with hk | hk <;> rw [hk] <;> decide)
          (by rw [hkt]; rcases hk with hk | hk <;> rw [hk] <;> decide)])
    (fun t ht => by
      rcases hk with hk | hk <;> rcases ht with ht | ht <;> rw [hk, ht] <;> rfl)
  simp only [readMath, Cursor.marker, Marker.text]
  generalize textUpTo? R.ctx.source _ c.ahead.tail = x at htext ⊢
  generalize textUpTo? R.ctx'.source _ c'.ahead.tail = x' at htext ⊢
  cases htext with
  | none => exact .error _ _
  | some hx => exact .ok ⟨R.text_trim hx.1, h.drop hend hx.2⟩

/-- Mathematics is trimmed. -/
theorem exists_trim_of_readMath {source : Source} {x : Text × Cursor}
    (h : readMath source c = .ok x) : ∃ t : Text, x.1 = t.trim := by
  simp only [readMath] at h
  split at h
  · exact ⟨_, congrArg Prod.fst (Except.ok.inj h).symm⟩
  · cases h

theorem agree_readInlineMath (h : R.At c c')
    (hk : c.current.kind = .mathInline ∨ c.current.kind = .mathDisplay) :
    Agree (fun x x' => R.pushed x.1 x'.1 ∧ R.Along false x.2 x'.2) (readInlineMath R.ctx.source c)
      (readInlineMath R.ctx'.source c') := by
  have hend : c.current.kind ≠ .endOfFile := by rcases hk with hk | hk <;> rw [hk] <;> decide
  have hname : c'.marker.text = c.marker.text :=
    (h.same hend).name (by rcases hk with hk | hk <;> rw [hk] <;> decide)
      (by rcases hk with hk | hk <;> rw [hk] <;> decide)
  rw [readInlineMath, readInlineMath, hname]
  split
  · have hnil : R.text ([] : List Text).reverse.flatten ([] : List Text).reverse.flatten := R.text_nil
    refine (agree_readDollars h.pairs_tail _ _ _ _ hnil).bind fun x x' hx => ?_
    exact .ok ⟨hx.1, h.drop hend hx.2⟩
  · refine (agree_readMath h hk).bind fun x x' hx => ?_
    exact .ok ⟨R.pushed_mathSpan _ _ _ _ hx.1, hx.2⟩

/-- Mathematics up to the end marker of an environment. -/
theorem rel_textUpTo?_end (h : R.Along false c c') (name : Text) :
    Option.Rel (fun x x' => R.text x.1 x'.1 ∧ R.Along false (c.advanceBy x.2) (c'.advanceBy x'.2))
      (textUpTo? R.ctx.source (fun t => t.kind == .envEnd && t.text == name) c.ahead)
      (textUpTo? R.ctx'.source (fun t => t.kind == .envEnd && t.text == name) c'.ahead) := by
  have htext := rel_textUpTo? (fun t => t.kind == .envEnd && t.text == name)
    (fun t => t.kind == .envEnd && t.text == name) h.pairs
    (fun t t' ht => by
      rw [ht.kind]
      cases hk : t.kind == .envEnd with
      | false => rfl
      | true =>
        have hk := eq_of_beq hk
        rw [ht.name (by rw [hk]; decide) (by rw [hk]; decide)])
    (fun t ht => by rcases ht with ht | ht <;> rw [ht] <;> rfl)
  generalize textUpTo? R.ctx.source _ c.ahead = x at htext ⊢
  generalize textUpTo? R.ctx'.source _ c'.ahead = x' at htext ⊢
  cases htext with
  | none => exact .none
  | some hx => exact .some ⟨hx.1, h.drop hx.2⟩

/-! ## Raw text -/

/-- Away from comments the same token is current. -/
theorem Along.at_of_ne_comment (h : R.Along false c c')
    (hk : R.thin → c.current.kind ≠ .comment) : R.At c c' where
  toAlong := h
  meets := by
    have hp := h.pairs
    generalize ha : c.ahead = l at hp
    generalize c'.ahead = l' at hp
    cases hp with
    | nil => exact .inl ⟨rfl, rfl⟩
    | same hs hend hcomment hrest =>
      exact .inr ⟨_, _, _, _, rfl, rfl, hs, hend, hcomment, hrest⟩
    | comment hthin hkind =>
      rw [Cursor.current_of_ahead ha] at hk
      exact absurd hkind (hk hthin)

/-- Behind the begin marker of a raw environment both lists have the same tokens, up to the end
marker. -/
theorem At.body (h : R.At c c') (hk : c.current.kind = .envBegin)
    (hname : c.current.text ∈ rawEnvironments) :
    R.At c.advance c'.advance ∧
      (c.advance.current.kind = .rawText → R.At c.advance.advance c'.advance.advance) := by
  have hends : ∀ {name : Text} {d : Cursor}, EndsBody name d.remaining → d.current.kind ≠ .comment := by
    rintro name d ⟨t, rest, hd, hkind⟩
    rw [Cursor.current_of_remaining hd]
    rcases hkind with hkind | ⟨hkind, -⟩ <;> rw [hkind] <;> decide
  have hend : c.current.kind ≠ .endOfFile := by rw [hk]; decide
  have hframes : R.thin → FramesBody c.current.text c.advance.remaining := by
    intro hthin
    have htame := h.tame hthin
    rw [Cursor.remaining_eq_cons h.terminated hend] at htame
    exact htame.framed.1 hk hname
  have hat : R.At c.advance c'.advance := by
    refine h.advance.at_of_ne_comment fun hthin => ?_
    obtain hbody | ⟨body, rest, hd, hbody, -⟩ := hframes hthin
    · exact hends hbody
    · rw [Cursor.current_of_remaining hd, hbody]
      decide
  refine ⟨hat, fun hraw => hat.advance.at_of_ne_comment fun hthin => ?_⟩
  have hendBody : c.advance.current.kind ≠ .endOfFile := by rw [hraw]; decide
  obtain ⟨t, rest, hd, hkind⟩ | ⟨body, rest, hd, -, hbody⟩ := hframes hthin
  · rw [Cursor.current_of_remaining hd] at hraw
    rcases hkind with hkind | ⟨hkind, -⟩ <;> rw [hkind] at hraw <;> cases hraw
  · rw [Cursor.remaining_eq_cons hat.terminated hendBody] at hd
    rw [← (List.cons.inj hd).2] at hbody
    exact hends hbody

/-- Neither a comment nor a line break has raw text behind it. -/
theorem Pairs.head_ne_rawText (h : R.Pairs b l l') {t last : Token}
    (hraw : RawPlaced (t :: (l ++ [last]))) (ht : t.kind = .comment ∨ t.kind = .newLine) :
    ∀ u ∈ l'.head?, u.kind ≠ .rawText := by
  induction h generalizing t with
  | nil => simp
  | @same u u' l l' hs hend hcomment hrest ih =>
    intro v hv hkind
    rw [← Option.some.inj hv, hs.kind] at hkind
    have hplaced := hraw.1 u rfl hkind
    rcases ht with ht | ht <;> rw [ht] at hplaced <;> simp at hplaced
  | comment hthin hk hrest ih => exact ih hraw.2 (.inl hk)
  | lineBreak hthin hk hblank _ hrest ih => exact ih hraw.2 (.inr hk)

/-- Raw text comes next in both lists, or in none. -/
theorem Along.at_rawText (h : R.Along false c c') :
    (c.current.kind = .rawText ∧ c'.current.kind = .rawText ∧ R.At c c') ∨
      (c.current.kind ≠ .rawText ∧ c'.current.kind ≠ .rawText) := by
  by_cases hcomment : R.thin ∧ c.current.kind = .comment
  · obtain ⟨hthin, hcomment⟩ := hcomment
    refine .inr ⟨by rw [hcomment]; decide, ?_⟩
    have hend : c.current.kind ≠ .endOfFile := by rw [hcomment]; decide
    have hp := h.pairs
    have hraw := (h.tame hthin).raw
    have ha := Cursor.ahead_eq_cons h.terminated hend
    rw [Cursor.remaining, ha] at hraw
    rw [ha] at hp
    generalize ha' : c'.ahead = l' at hp
    cases hp with
    | same hs hend hne => exact absurd hcomment (hne hthin)
    | comment hthin' hk hrest =>
      have hhead := hrest.head_ne_rawText hraw (.inl hcomment)
      cases l' with
      | nil =>
        rw [Cursor.current_of_ahead_nil ha', show c'.final.kind = .endOfFile from h.terminated']
        decide
      | cons t rest =>
        rw [Cursor.current_of_ahead ha']
        exact hhead t rfl
  · have hat := h.at_of_ne_comment fun hthin hk => hcomment ⟨hthin, hk⟩
    rw [hat.kind]
    by_cases hk : c.current.kind = .rawText
    · exact .inl ⟨hk, hk, hat⟩
    · exact .inr ⟨hk, hk⟩

/-! ## Space -/

theorem kind_of_isCellSpacing (t : Token) (h : State.isCellSpacing t = true) :
    t.kind ≠ .endOfFile := by
  intro hk
  simp [State.isCellSpacing, Token.isSpacing, Token.isBlankText, hk] at h

theorem Same.isCellSpacing {t t' : Token} (h : R.Same t t') :
    State.isCellSpacing t' = State.isCellSpacing t := by
  rw [State.isCellSpacing, State.isCellSpacing, h.kind, h.isSpacing]

theorem Pairs.meets_dropCellSpacing (h : R.Pairs b l l') :
    R.Meets (l.dropWhile State.isCellSpacing) (l'.dropWhile State.isCellSpacing) := by
  induction h with
  | nil => exact .inl ⟨rfl, rfl⟩
  | @same t t' l l' hs hend hcomment hrest ih =>
    rw [List.dropWhile_cons, List.dropWhile_cons, hs.isCellSpacing]
    split
    · exact ih
    · exact .inr ⟨t, t', l, l', rfl, rfl, hs, hend, hcomment, hrest⟩
  | comment hthin hk hrest ih =>
    rw [List.dropWhile_cons, if_pos (by simp [State.isCellSpacing, hk])]
    exact ih
  | lineBreak hthin hk hblank _ hrest ih =>
    rw [List.dropWhile_cons, if_pos (by simp [State.isCellSpacing, Token.isSpacing, hk])]
    exact ih

/-- Before the content of a cell comments are skipped like space. -/
theorem Along.skipCellSpacing (h : R.Along b c c') :
    R.At (c.advanceBy (c.countWhile State.isCellSpacing))
      (c'.advanceBy (c'.countWhile State.isCellSpacing)) := by
  have hmeets := h.pairs.meets_dropCellSpacing
  rw [← Cursor.ahead_skipWhile kind_of_isCellSpacing c,
    ← Cursor.ahead_skipWhile kind_of_isCellSpacing c'] at hmeets
  exact ⟨h.reach (.advanceBy _ _) (.advanceBy _ _) hmeets.pairs, hmeets⟩

/-- Between blocks: what is ahead is alike, but for space that comes first in the second list. -/
structure Near (R : Likeness) (c c' : Cursor) : Prop where
  pairs : ∃ b k, R.Pairs b c.ahead k ∧ k.dropWhile Token.isSpacing = c'.ahead.dropWhile Token.isSpacing
  terminated : c.Terminated
  terminated' : c'.Terminated
  tame : R.thin → Tame R.counts c.remaining

theorem Along.near (h : R.Along b c c') : R.Near c c' :=
  ⟨⟨b, c'.ahead, h.pairs, rfl⟩, h.terminated, h.terminated', h.tame⟩

theorem Pairs.dropSpacing (h : R.Pairs b l l') :
    ∃ b' k, R.Pairs b' (l.dropWhile Token.isSpacing) k ∧
      k.dropWhile Token.isSpacing = l'.dropWhile Token.isSpacing := by
  induction h with
  | nil b => exact ⟨b, [], .nil b, rfl⟩
  | @same t t' l l' hs hend hcomment hrest ih =>
    obtain ⟨b', k, hp, hk⟩ := ih
    rw [List.dropWhile_cons]
    split
    · next hspacing =>
      refine ⟨b', k, hp, ?_⟩
      rw [hk, List.dropWhile_cons, if_pos (hs.isSpacing.trans hspacing)]
    · exact ⟨false, t' :: l', .same hs hend hcomment hrest, rfl⟩
  | @comment t l l' hthin hk hrest ih =>
    have hspacing : t.isSpacing = false := by simp [Token.isSpacing, Token.isBlankText, hk]
    rw [List.dropWhile_cons, if_neg (by rw [hspacing]; decide)]
    exact ⟨false, l', .comment hthin hk hrest, rfl⟩
  | @lineBreak t l l' hthin hk hblank _ hrest ih =>
    rw [List.dropWhile_cons, if_pos (by simp [Token.isSpacing, hk])]
    exact ih

theorem ahead_skipSpacing (c : Cursor) : c.skipSpacing.ahead = c.ahead.dropWhile Token.isSpacing :=
  Cursor.ahead_skipWhile (fun _ => Token.kind_ne_endOfFile_of_isSpacing) c

/-- Skipping space on either side leaves two places between blocks what they are to each other. -/
theorem Near.skipSpacing (h : R.Near c c') (hd' : c'.Reaches d')
    (hspacing : d'.ahead.dropWhile Token.isSpacing = c'.ahead.dropWhile Token.isSpacing) :
    R.Near c.skipSpacing d' where
  pairs := by
    obtain ⟨b, k, hp, hk⟩ := h.pairs
    obtain ⟨b', k', hp', hk'⟩ := hp.dropSpacing
    rw [ahead_skipSpacing]
    exact ⟨b', k', hp', hk'.trans (hk.trans hspacing.symm)⟩
  terminated := c.reaches_skipSpacing.terminated h.terminated
  terminated' := hd'.terminated h.terminated'
  tame hthin := by
    obtain ⟨before, hbefore⟩ := remaining_suffix c.reaches_skipSpacing
    exact (hbefore ▸ h.tame hthin).of_append

theorem head_skipSpacing {c : Cursor} {t : Token} (h : t ∈ c.skipSpacing.ahead.head?) :
    t.isSpacing = false := by
  rw [ahead_skipSpacing] at h
  have hhead := List.head?_dropWhile_not Token.isSpacing c.ahead
  rw [Option.mem_def.mp h] at hhead
  simpa using hhead

/-- Behind the space between blocks the same token is current, unless a comment comes first. -/
theorem Near.at_skipSpacing (h : R.Near c c')
    (hk : R.thin → c.skipSpacing.current.kind ≠ .comment) : R.At c.skipSpacing c'.skipSpacing := by
  obtain ⟨b, k, hp, hk'⟩ := h.pairs
  obtain ⟨b', k', hp', hk''⟩ := hp.dropSpacing
  rw [← ahead_skipSpacing] at hp'
  rw [hk', ← ahead_skipSpacing] at hk''
  have hmeets : R.Meets c.skipSpacing.ahead c'.skipSpacing.ahead := by
    rw [← hk'']
    generalize ha : c.skipSpacing.ahead = l at hp'
    cases hp' with
    | nil => exact .inl ⟨rfl, rfl⟩
    | @same t t' l l' hs hend hcomment hrest =>
      have hspacing : t.isSpacing = false := head_skipSpacing (by rw [ha]; rfl)
      rw [List.dropWhile_cons, if_neg (by rw [hs.isSpacing, hspacing]; decide)]
      exact .inr ⟨t, t', l, l', rfl, rfl, hs, hend, hcomment, hrest⟩
    | comment hthin hkind =>
      rw [Cursor.current_of_ahead ha] at hk
      exact absurd hkind (hk hthin)
    | @lineBreak t l l' hthin hkind =>
      have hspacing : t.isSpacing = false := head_skipSpacing (by rw [ha]; rfl)
      simp [Token.isSpacing, hkind] at hspacing
  have hnear := h.skipSpacing c'.reaches_skipSpacing (by
    rw [ahead_skipSpacing, List.dropWhile_idempotent])
  exact ⟨⟨hmeets.pairs, hnear.terminated, hnear.terminated', hnear.tame⟩, hmeets⟩

end LatexMarkdown.Parse.Likeness
