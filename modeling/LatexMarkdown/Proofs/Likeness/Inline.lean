import LatexMarkdown.Proofs.Likeness.State
/-!
  Inline content read alike.

  One lemma for every reader of inline content, up to `agree_takeToken`: from states that are alike,
  at the same token, both readings come to states that are alike, or both fail.
-/
namespace LatexMarkdown.Parse.Likeness

variable {R : Likeness} {s s' : State} {i i' : OpenInline}

/-! ## Braces and arguments -/

theorem agree_openBrace (h : R.Alike s s') (hi : R.OfContent i i') (hc : R.At s.cursor s'.cursor)
    (kept : Bool) : Agree R.Stands (s.openBrace i kept) (s'.openBrace i' kept) := by
  rw [State.openBrace, State.openBrace, h.depth]
  refine (agree_checkDepth _ _ _).bind fun _ _ _ => ?_
  refine .ok (h.inside ⟨hi.line, ⟨?_, ?_⟩, hi.arguments⟩ hc.advance)
  · cases kept with
    | false => exact hi.run.fragments
    | true => exact R.fragments_pushText _ _ _ _ hi.run.fragments (R.exact_unbroken (by decide))
  · exact .cons rfl hi.run.braces

theorem agree_openKeptBraces (h : R.Alike s s') (hi : R.OfContent i i')
    (hc : R.Behind s.cursor s'.cursor) :
    Agree R.Stands (s.openKeptBraces i) (s'.openKeptBraces i') := by
  have halike := h.withInline hi
  simp only [State.openKeptBraces]
  obtain ⟨hk, hk', hat⟩ | ⟨hk, hk'⟩ := hc.at_opener (.inl rfl)
  · rw [if_pos hk, if_pos hk']
    exact agree_openBrace halike hi hat true
  · rw [if_neg hk, if_neg hk']
    exact .ok (halike.stands hc.toAlong)

theorem agree_openArgument (h : R.Alike s s') (hi : R.OfContent i i')
    (hc : R.Behind s.cursor s'.cursor) (owner owner' : Marker) (flaw flaw' : Flaw)
    {p p' : Purpose} (hp : Purpose.Alike R.text p p') :
    Agree R.Stands (s.openArgument i owner flaw p) (s'.openArgument i' owner' flaw' p') := by
  rw [State.openArgument, State.openArgument]
  refine (agree_startGroup hc owner owner' flaw flaw').bind fun opened opened' hat => ?_
  simp only [h.depth]
  refine (agree_checkDepth _ _ _).bind fun _ _ _ => ?_
  have hcontent : R.OfContent
      { i with run := {}, arguments := ⟨p, opened.marker, i.run⟩ :: i.arguments }
      { i' with run := {}, arguments := ⟨p', opened'.marker, i'.run⟩ :: i'.arguments } :=
    ⟨hi.line, ⟨R.fragments_nil, .nil⟩, .cons ⟨hp, hi.run⟩ hi.arguments⟩
  exact .ok (h.inside hcontent hat.advance)

/-! ## Commands -/

section Command

variable (h : R.Alike s s') (hi : R.OfContent i i') (hc : R.At s.cursor s'.cursor)
  (hk : s.cursor.current.kind = .command)

include hc hk

theorem At.name_of_command : s'.cursor.current.text = s.cursor.current.text :=
  (hc.same (by rw [hk]; decide)).name (by rw [hk]; decide) (by rw [hk]; decide)

theorem At.behind_command : R.Behind s.cursor.advance s'.cursor.advance :=
  hc.behind (by rw [Token.mayTake, hk])

include h hi

theorem agree_takeUnknownCommand :
    Agree R.Stands (s.takeUnknownCommand i) (s'.takeUnknownCommand i') := by
  have ht : R.exact (0x5C :: s.cursor.current.text) (0x5C :: s'.cursor.current.text) :=
    R.exact_append (R.exact_unbroken (t := [0x5C]) (by decide)) (hc.same (by rw [hk]; decide)).text
  have hcontent := hi.withFragments (R.fragments_pushText s.cursor.current.start
    s.cursor.current.stop s'.cursor.current.start s'.cursor.current.stop hi.run.fragments ht)
  have halike : R.Alike { s.warnAt (.unknownCommand s.cursor.current.text) s.cursor.current with
        cursor := s.cursor.advance }
      { s'.warnAt (.unknownCommand s'.cursor.current.text) s'.cursor.current with
        cursor := s'.cursor.advance } := ⟨h.blocks, h.environments, h.inline?⟩
  exact agree_openKeptBraces halike hcontent (hc.behind_command hk)

theorem agree_dropCommand (count : Nat) :
    Agree R.Stands (s.dropCommand R.ctx i count) (s'.dropCommand R.ctx' i' count) :=
  (agree_skipCommand hc hk count).bind fun _ _ hd => .ok (h.gather hi hi.run.fragments hd.toAlong)

theorem agree_takeLink : Agree R.Stands (s.takeLink R.ctx i) (s'.takeLink R.ctx' i') := by
  refine (agree_readGroup (hc.behind_command hk) _ _ _ _).bind fun x x' hx => ?_
  exact agree_openArgument (h.withCursor x.2 x'.2) hi hx.behind _ _ _ _
    (.linkText _ _ (R.text_trim hx.text))

theorem agree_takeUrl : Agree R.Stands (s.takeUrl R.ctx i) (s'.takeUrl R.ctx' i') := by
  refine (agree_readGroup (hc.behind_command hk) _ _ _ _).bind fun x x' hx => ?_
  refine .ok (h.gather hi ?_ hx.behind.toAlong)
  exact R.fragments_foldl hi.run.fragments (R.pushed_url _ _ _ _ (R.text_trim hx.text))

theorem agree_takeVerbatim : Agree R.Stands (s.takeVerbatim i) (s'.takeVerbatim i') := by
  simp only [State.takeVerbatim]
  obtain ⟨hraw, hraw', hat⟩ | ⟨hraw, hraw'⟩ := (hc.behind_command hk).at_rawText
  · rw [if_pos hraw, if_pos hraw']
    refine .ok (h.gather hi ?_ hat.advance)
    have hs := hat.same (by rw [hraw]; decide)
    exact R.fragments_foldl hi.run.fragments (R.pushed_code _ _ _ _ hs.text)
  · rw [if_neg hraw, if_neg hraw']
    exact .error _ _

omit hk in
theorem stands_takeForcedBreak : R.Stands (s.takeForcedBreak i) (s'.takeForcedBreak i') :=
  h.gather hi (R.fragments_foldl hi.run.fragments (R.pushed_hardBreak _ _ _ _)) hc.advance

theorem agree_takeCommand : Agree R.Stands (s.takeCommand R.ctx i) (s'.takeCommand R.ctx' i') := by
  have hname : s'.cursor.marker.text = s.cursor.marker.text := hc.name_of_command hk
  simp only [State.takeCommand, hname, hi.droppedCount?]
  split
  · exact .error _ _
  split
  · exact agree_dropCommand h hi hc hk _
  · exact agree_openArgument (h.withCursor _ _) hi (hc.behind_command hk) _ _ _ _ (.styled _ _ _)
  · split
    · exact .ok (stands_takeForcedBreak h hi hc)
    split
    · exact agree_takeLink h hi hc hk
    split
    · exact agree_takeUrl h hi hc hk
    split
    · exact agree_takeVerbatim h hi hc hk
    · exact agree_takeUnknownCommand h hi hc hk

end Command

/-! ## Tokens -/

section Token

variable (h : R.Alike s s') (hi : R.OfContent i i') (hc : R.At s.cursor s'.cursor)
  (hk : s.cursor.current.kind ≠ .endOfFile)

include h hi hc hk

theorem stands_takeLiteral : R.Stands (s.takeLiteral R.ctx i) (s'.takeLiteral R.ctx' i') :=
  h.gather hi (R.fragments_pushText _ _ _ _ hi.run.fragments (hc.same hk).spelling) hc.advance

theorem stands_takeText : R.Stands (s.takeText i) (s'.takeText i') := by
  have hf := R.fragments_pushText s.cursor.current.start s.cursor.current.stop
    s'.cursor.current.start s'.cursor.current.stop hi.run.fragments (hc.same hk).text
  have hwarn : ∀ (u : State) (b : Bool) (cause : Degradation) (t : Token),
      (if b then u.warnAt cause t else u).cursor = u.cursor := by
    intro u b cause t
    split <;> rfl
  have halike : ∀ (b b' : Bool) (cause cause' : Degradation) (t t' : Token),
      R.Alike (if b then s.warnAt cause t else s) (if b' then s'.warnAt cause' t' else s') := by
    intro b b' cause cause' t t'
    split <;> split <;> exact ⟨h.blocks, h.environments, h.inline?⟩
  simp only [State.takeText, hwarn]
  exact (halike _ _ _ _ _ _).gather hi hf hc.advance

omit hk in
theorem stands_takeSpace : R.Stands (s.takeSpace i) (s'.takeSpace i') :=
  h.gather hi (R.fragments_pushText _ _ _ _ hi.run.fragments (R.exact_unbroken (by decide))) hc.advance

omit hk in
theorem stands_takeLineBreak (hbreak : s.cursor.current.kind = .lineBreak) :
    R.Stands (s.takeLineBreak i) (s'.takeLineBreak i') := by
  have hbehind : R.Behind s.cursor.advance s'.cursor.advance :=
    hc.behind (by rw [Token.mayTake, hbreak])
  have hf := R.fragments_foldl hi.run.fragments (R.pushed_hardBreak s.cursor.current.start
    s.cursor.current.stop s'.cursor.current.start s'.cursor.current.stop)
  simp only [State.takeLineBreak]
  obtain ⟨hopen, hopen', -⟩ | ⟨hopen, hopen'⟩ := hbehind.at_opener (.inr rfl)
  · rw [if_pos hopen, if_pos hopen']
    exact h.gather hi hf (behind_skipOptionalArgument hbehind).toAlong
  · rw [if_neg hopen, if_neg hopen']
    exact h.gather hi hf hbehind.toAlong

/-- A comment that stands in both lists. -/
theorem stands_takeComment (hcomment : s.cursor.current.kind = .comment) :
    R.Stands (s.takeComment i) (s'.takeComment i') := by
  have hthin : ¬ R.thin := fun hthin => hc.kind_ne_comment hthin hcomment
  have hnext : R.At s.cursor.advance s'.cursor.advance := hc.advance.at hthin
  have ht : R.exact (0x25 :: s.cursor.current.text) (0x25 :: s'.cursor.current.text) :=
    R.exact_append (R.exact_unbroken (t := [0x25]) (by decide)) (hc.same hk).text
  have hf := R.fragments_pushText s.cursor.current.start s.cursor.current.stop
    s'.cursor.current.start s'.cursor.current.stop hi.run.fragments ht
  simp only [State.takeComment, hi.inTable]
  split
  · exact h.gather hi hi.run.fragments hnext.toAlong
  · have hiff : (s'.cursor.advance.current.kind = .newLine ∧ (!s'.cursor.advance.current.isBlankLine) = true)
        ↔ (s.cursor.advance.current.kind = .newLine ∧ (!s.cursor.advance.current.isBlankLine) = true) := by
      rw [hnext.kind]
      refine and_congr_right fun hline => ?_
      rw [(hnext.same (by rw [hline]; decide)).isBlankLine]
    simp only [hiff]
    split
    · exact h.gather hi (R.fragments_foldl hf (R.pushed_hardBreak _ _ _ _)) hnext.advance
    · exact h.gather hi hf hnext.toAlong

theorem agree_takeMath
    (hmath : s.cursor.current.kind = .mathInline ∨ s.cursor.current.kind = .mathDisplay) :
    Agree R.Stands (s.takeMath R.ctx i) (s'.takeMath R.ctx' i') := by
  have hname : s'.cursor.current.text = s.cursor.current.text :=
    (hc.same hk).name (by rcases hmath with hm | hm <;> rw [hm] <;> decide)
      (by rcases hmath with hm | hm <;> rw [hm] <;> decide)
  simp only [State.takeMath, hname]
  split
  · exact .ok (stands_takeLiteral h hi hc hk)
  · refine (agree_readInlineMath hc hmath).bind fun x x' hx => ?_
    exact .ok (h.gather hi (R.fragments_foldl hi.run.fragments hx.1) hx.2)

end Token

/-- A token that is read in both lists. -/
theorem agree_takeToken (h : R.Alike s s') (hi : R.OfContent i i') (hc : R.At s.cursor s'.cursor) :
    Agree R.Stands (s.takeToken R.ctx i) (s'.takeToken R.ctx' i') := by
  have hkind : s'.cursor.marker.token.kind = s.cursor.marker.token.kind := hc.kind
  have hne : ∀ kind, s.cursor.marker.token.kind = kind → kind ≠ .endOfFile →
      s.cursor.current.kind ≠ .endOfFile := by
    rintro _ rfl hk
    exact hk
  simp only [State.takeToken, hkind]
  cases hk : s.cursor.marker.token.kind with
  | endOfFile | envEnd | envBegin | groupClose => exact .error _ _
  | text | rawText => exact .ok (stands_takeText h hi hc (hne _ hk (by decide)))
  | newLine => exact .ok (stands_takeSpace h hi hc)
  | comment => exact .ok (stands_takeComment h hi hc (hne _ hk (by decide)) hk)
  | lineBreak => exact .ok (stands_takeLineBreak h hi hc hk)
  | groupOpen => exact agree_openBrace h hi hc false
  | mathInline => exact agree_takeMath h hi hc (hne _ hk (by decide)) (.inl hk)
  | mathDisplay => exact agree_takeMath h hi hc (hne _ hk (by decide)) (.inr hk)
  | command => exact agree_takeCommand h hi hc hk
  | unknown | bracketOpen | bracketClose | alignmentTab =>
    exact .ok (stands_takeLiteral h hi hc (hne _ hk (by decide)))

end LatexMarkdown.Parse.Likeness
