import LatexMarkdown.Proofs.OptionalArguments
/-!
  Required arguments, read to their closing brace and no further.

  The closing brace of an argument is the first that closes no group opened behind the opening one:
  `Matched` says so by counting braces.  Braces are counted as tokens, so one in an escape, in raw text
  or in a comment counts for nothing.  `readGroup` succeeds just where spacing, an opening brace and its
  match stand ahead; it passes these, and its text is what stands between the braces, token by token.

  Main statement: `readGroup_exact`.
-/
namespace LatexMarkdown

namespace Parse

variable {source : Source} {c d : Cursor} {ts spacing body more rest : List Token}
  {t opener closer : Token} {depth n : Nat} {text : Text}

/-! ## The match of a brace -/

/-- The brace behind the body matches the one in front of it: the body opens every group that it closes
and closes every group that it opens.  No group goes on past the end. -/
structure Matched (body : List Token) (closer : Token) : Prop where
  kind_closer : closer.kind = .groupClose
  contained : Contained body
  balanced : groupDepth body = 0
  unbroken : ∀ t ∈ body, t.kind ≠ .endOfFile

/-- The same of what is left of a body where some groups in it are open. -/
structure MatchedFrom (depth : Int) (body : List Token) (closer : Token) : Prop where
  kind_closer : closer.kind = .groupClose
  contained : ∀ inner, inner <+: body → 0 ≤ depth + groupDepth inner
  balanced : depth + groupDepth body = 0
  unbroken : ∀ t ∈ body, t.kind ≠ .endOfFile

theorem matchedFrom_zero_iff : MatchedFrom 0 body closer ↔ Matched body closer := by
  constructor
  · intro h
    exact ⟨h.kind_closer, fun inner hp => by simpa using h.contained inner hp, by simpa using h.balanced,
      h.unbroken⟩
  · intro h
    exact ⟨h.kind_closer, fun inner hp => by simpa using h.contained inner hp, by simpa using h.balanced,
      h.unbroken⟩

theorem matchedFrom_nil {depth : Int} :
    MatchedFrom depth [] closer ↔ closer.kind = .groupClose ∧ depth = 0 := by
  refine ⟨fun h => ⟨h.kind_closer, by simpa using h.balanced⟩, fun ⟨hk, hd⟩ => ?_⟩
  refine ⟨hk, fun inner hp => ?_, by simpa using hd, by simp⟩
  simp [List.prefix_nil.mp hp, hd]

theorem matchedFrom_cons {depth : Int} :
    MatchedFrom depth (t :: body) closer ↔
      t.kind ≠ .endOfFile ∧ 0 ≤ depth ∧ MatchedFrom (depth + groupDepth [t]) body closer := by
  constructor
  · intro h
    refine ⟨h.unbroken t List.mem_cons_self, by simpa using h.contained [] List.nil_prefix, ?_⟩
    refine ⟨h.kind_closer, fun inner hp => ?_, ?_, fun u hu => h.unbroken u (List.mem_cons_of_mem t hu)⟩
    · rw [Int.add_assoc, ← groupDepth_cons]
      exact h.contained (t :: inner) (List.cons_prefix_cons.mpr ⟨rfl, hp⟩)
    · rw [Int.add_assoc, ← groupDepth_cons]
      exact h.balanced
  · rintro ⟨ht, hdepth, h⟩
    refine ⟨h.kind_closer, fun inner hp => ?_, ?_, List.forall_mem_cons.mpr ⟨ht, h.unbroken⟩⟩
    · cases inner with
      | nil => simpa using hdepth
      | cons u inner =>
        obtain ⟨rfl, hinner⟩ := List.cons_prefix_cons.mp hp
        rw [groupDepth_cons, ← Int.add_assoc]
        exact h.contained inner hinner
    · rw [groupDepth_cons, ← Int.add_assoc]
      exact h.balanced

/-! ## The text of a group -/

/-- What a token adds to the text of the group that it stands in: an escape its bare character, a
comment nothing, and any other token its spelling. -/
def Source.piece (source : Source) (t : Token) : Text :=
  if t.kind = .text ∧ t.flags.escaped then t.text
  else if t.kind = .comment then []
  else source.spelling t

/-- One round of the scan. -/
theorem groupText?_round (source : Source) (depth : Nat) (t : Token) (ts : List Token) :
    groupText? source depth (t :: ts) =
      if t.kind = .endOfFile then none
      else if t.kind = .groupClose ∧ depth = 0 then some ([], 1)
      else (groupText? source (depth + groupDepth [t]).toNat ts).map fun r =>
        (source.piece t ++ r.1, r.2 + 1) := by
  rw [groupText?.eq_def]
  cases hk : t.kind with
  | groupClose =>
    cases depth with
    | zero => simp [hk]
    | succ depth =>
      have hdepth : ((depth + 1 : Nat) + groupDepth [t]).toNat = depth := by
        simp only [groupDepth, hk]
        omega
      rw [hdepth]
      simp [Source.piece, Source.raw, hk]
  | _ =>
    simp [Source.piece, Source.raw, groupDepth, hk]

/-- The depth of a round that goes on. -/
theorem toNat_add_groupDepth (h : ¬ (t.kind = .groupClose ∧ depth = 0)) :
    ((depth + groupDepth [t]).toNat : Int) = depth + groupDepth [t] := by
  refine Int.toNat_of_nonneg ?_
  by_contra hneg
  obtain ⟨hk, hone⟩ := kind_of_groupDepth_neg (t := t) (by omega)
  exact h ⟨hk, by omega⟩

/-- The scan finds the body and the brace that matches, and nothing else. -/
theorem groupText?_eq_some_iff :
    groupText? source depth ts = some (text, n) ↔
      ∃ body closer rest, ts = body ++ closer :: rest ∧ MatchedFrom depth body closer ∧
        text = body.flatMap source.piece ∧ n = body.length + 1 := by
  -- On the tokens, for every depth: a brace in the body leaves the rest to be matched from another.
  induction ts generalizing depth text n with
  | nil => simp [groupText?]
  | cons t ts ih =>
    rw [groupText?_round]
    constructor
    · intro h
      split at h
      · cases h
      · next hend =>
        split at h
        · next hclose =>
          -- No group is open but the argument itself.
          cases h
          exact ⟨[], t, ts, rfl, matchedFrom_nil.mpr ⟨hclose.1, by simp [hclose.2]⟩, rfl, rfl⟩
        · next hclose =>
          obtain ⟨⟨text', m⟩, hm, heq⟩ := Option.map_eq_some_iff.mp h
          obtain ⟨body, closer, rest, rfl, hmatched, rfl, rfl⟩ := ih.mp hm
          rw [toNat_add_groupDepth hclose] at hmatched
          cases heq
          exact ⟨t :: body, closer, rest, rfl,
            matchedFrom_cons.mpr ⟨hend, Int.natCast_nonneg depth, hmatched⟩, rfl, rfl⟩
    · rintro ⟨body, closer, rest, heq, hmatched, rfl, rfl⟩
      cases body with
      | nil =>
        obtain ⟨rfl, rfl⟩ := List.cons.inj heq
        obtain ⟨hk, hd⟩ := matchedFrom_nil.mp hmatched
        rw [if_neg (by simp [hk]), if_pos ⟨hk, by simpa using hd⟩]
        rfl
      | cons u body =>
        obtain ⟨rfl, rfl⟩ := List.cons.inj heq
        obtain ⟨hend, -, hmatched⟩ := matchedFrom_cons.mp hmatched
        have hclose : ¬ (t.kind = .groupClose ∧ depth = 0) := by
          rintro ⟨hk, rfl⟩
          -- The brace would close a group that was open before.
          have hneg := hmatched.contained [] List.nil_prefix
          simp [groupDepth, hk] at hneg
        rw [← toNat_add_groupDepth hclose] at hmatched
        rw [if_neg hend, if_neg hclose, ih.mpr ⟨body, closer, rest, rfl, hmatched, rfl, rfl⟩]
        rfl

/-! ## The opening brace -/

/-- Behind spacing, a group opens ahead of the cursor. -/
structure GroupAhead (c : Cursor) (spacing : List Token) (opener : Token) (more : List Token) : Prop where
  ahead : c.ahead = spacing ++ opener :: more
  isArgumentSpacing : ∀ t ∈ spacing, t.isArgumentSpacing = true
  kind_opener : opener.kind = .groupOpen

theorem GroupAhead.startArgument? (h : GroupAhead c spacing opener more) :
    startArgument? .groupOpen c = some (c.past spacing (opener :: more)) := by
  have hopener : opener.isArgumentSpacing = false := by
    simp [Token.isArgumentSpacing, Token.isBlankText, h.kind_opener]
  rw [startArgument?_of_spacing _ h.ahead h.isArgumentSpacing hopener, if_pos h.kind_opener]

/-- The cursor is moved to an opening brace that stands ahead, and to no other place. -/
theorem startArgument?_groupOpen_eq_some_iff (hc : c.Terminated) :
    startArgument? .groupOpen c = some d ↔
      ∃ spacing opener more, GroupAhead c spacing opener more ∧ d = c.past spacing (opener :: more) := by
  constructor
  · intro h
    obtain hall | ⟨spacing, t, rest, hsplit, hs, ht⟩ := argumentSpacing_cases c
    · -- Behind nothing but spacing stands the end.
      rw [startArgument?_of_forall_isArgumentSpacing _ hall, hc] at h
      cases h
    · rw [startArgument?_of_spacing _ hsplit hs ht] at h
      split at h
      · next hk => exact ⟨spacing, t, rest, ⟨hsplit, hs, hk⟩, (Option.some.inj h).symm⟩
      · cases h
  · rintro ⟨spacing, opener, more, hgroup, rfl⟩
    exact hgroup.startArgument?

/-! ## Reading -/

variable {owner : Marker} {flaw : Flaw}

theorem startArgument?_groupOpen_eq_none_iff (hc : c.Terminated) :
    startArgument? .groupOpen c = none ↔ ∀ spacing opener more, ¬ GroupAhead c spacing opener more := by
  rw [Option.eq_none_iff_forall_ne_some]
  constructor
  · intro h spacing opener more hgroup
    exact h _ hgroup.startArgument?
  · intro h d hd
    obtain ⟨spacing, opener, more, hgroup, -⟩ := (startArgument?_groupOpen_eq_some_iff hc).mp hd
    exact h spacing opener more hgroup

theorem readGroup_of_startArgument?_eq_none (h : startArgument? .groupOpen c = none) :
    readGroup source owner flaw c = .error ⟨flaw, owner⟩ := by
  rw [readGroup, startGroup, h]
  rfl

namespace GroupAhead

/-- Behind the opening brace it is the scan that decides. -/
theorem readGroup_eq (h : GroupAhead c spacing opener more) :
    readGroup source owner flaw c =
      match groupText? source 0 more with
      | some (text, n) => .ok (text, (c.past spacing (opener :: more)).advanceBy (n + 1))
      | none => .error ⟨.unclosedGroup opener.text, ⟨opener, c.index + spacing.length⟩⟩ := by
  rw [readGroup, startGroup, h.startArgument?]
  show (match groupText? source 0 more with
    | some (text, n) => _
    | none => _) = _
  split <;> rfl

/-- Past the group that opens ahead. -/
theorem advanceBy_past (h : GroupAhead c spacing opener (body ++ closer :: rest))
    (hmatched : Matched body closer) :
    (c.past spacing (opener :: (body ++ closer :: rest))).advanceBy (body.length + 1 + 1) =
      c.past (spacing ++ opener :: (body ++ [closer])) rest := by
  have hahead : opener :: (body ++ closer :: rest) = (opener :: (body ++ [closer])) ++ rest := by simp
  have hend : ∀ t ∈ opener :: (body ++ [closer]), t.kind ≠ .endOfFile := by
    simp only [List.forall_mem_cons, List.forall_mem_append]
    exact ⟨by simp [h.kind_opener], hmatched.unbroken, by simp [hmatched.kind_closer]⟩
  have hlength : body.length + 1 + 1 = (opener :: (body ++ [closer])).length := by simp
  rw [hlength, Cursor.advanceBy_length hahead hend]
  simp [Cursor.past, Nat.add_assoc]

theorem readGroup_of_matched (h : GroupAhead c spacing opener (body ++ closer :: rest))
    (hmatched : Matched body closer) :
    readGroup source owner flaw c =
      .ok (body.flatMap source.piece, c.past (spacing ++ opener :: (body ++ [closer])) rest) := by
  have htext : groupText? source 0 (body ++ closer :: rest)
      = some (body.flatMap source.piece, body.length + 1) :=
    groupText?_eq_some_iff.mpr ⟨body, closer, rest, rfl, matchedFrom_zero_iff.mpr hmatched, rfl, rfl⟩
  rw [h.readGroup_eq, htext, ← h.advanceBy_past hmatched]

theorem readGroup_of_unmatched (h : GroupAhead c spacing opener more)
    (hnone : ∀ body closer rest, more = body ++ closer :: rest → ¬ Matched body closer) :
    readGroup source owner flaw c =
      .error ⟨.unclosedGroup opener.text, ⟨opener, c.index + spacing.length⟩⟩ := by
  have htext : groupText? source 0 more = none := by
    rw [Option.eq_none_iff_forall_ne_some]
    intro r hr
    obtain ⟨body, closer, rest, heq, hmatched, -⟩ := groupText?_eq_some_iff.mp hr
    exact hnone body closer rest heq (matchedFrom_zero_iff.mp hmatched)
  rw [h.readGroup_eq, htext]

end GroupAhead

/-- No group opens ahead, or one opens that has no match, or one with its match. -/
theorem groupAhead_cases (c : Cursor) :
    (∀ spacing opener more, ¬ GroupAhead c spacing opener more) ∨
      (∃ spacing opener more, GroupAhead c spacing opener more ∧
        ∀ body closer rest, more = body ++ closer :: rest → ¬ Matched body closer) ∨
      ∃ spacing opener body closer rest, GroupAhead c spacing opener (body ++ closer :: rest) ∧
        Matched body closer := by
  by_cases hgroup : ∃ spacing opener more, GroupAhead c spacing opener more
  · obtain ⟨spacing, opener, more, hgroup⟩ := hgroup
    by_cases hmatch : ∃ body closer rest, more = body ++ closer :: rest ∧ Matched body closer
    · obtain ⟨body, closer, rest, rfl, hmatched⟩ := hmatch
      exact .inr (.inr ⟨spacing, opener, body, closer, rest, hgroup, hmatched⟩)
    · exact .inr (.inl ⟨spacing, opener, more, hgroup, fun body closer rest heq hmatched =>
        hmatch ⟨body, closer, rest, heq, hmatched⟩⟩)
  · exact .inl fun spacing opener more h => hgroup ⟨spacing, opener, more, h⟩

/-- A required argument is read where spacing, an opening brace and its match stand ahead, and nowhere
else.  Its text is what stands between the braces, and the cursor behind it comes right behind the closing
one.  Where no group opens the cursor is not moved, and the failure is the owner's; where one opens and has
no match, it is about the opening brace. -/
theorem readGroup_exact (hc : c.Terminated) (source : Source) (owner : Marker) (flaw : Flaw) :
    (∀ text after, readGroup source owner flaw c = .ok (text, after) ↔
      ∃ spacing opener body closer rest, GroupAhead c spacing opener (body ++ closer :: rest) ∧
        Matched body closer ∧ text = body.flatMap source.piece ∧
        after = c.past (spacing ++ opener :: (body ++ [closer])) rest ∧ after.lastStop = closer.stop) ∧
    ∀ failure, readGroup source owner flaw c = .error failure ↔
      (startArgument? .groupOpen c = none ∧ (∀ spacing opener more, ¬ GroupAhead c spacing opener more) ∧
          failure = ⟨flaw, owner⟩) ∨
        ∃ spacing opener more, GroupAhead c spacing opener more ∧
          (∀ body closer rest, more = body ++ closer :: rest → ¬ Matched body closer) ∧
          failure = ⟨.unclosedGroup opener.text, ⟨opener, c.index + spacing.length⟩⟩ := by
  constructor
  · intro text after
    constructor
    · intro h
      obtain hnone | ⟨spacing, opener, more, hgroup, hnone⟩ |
        ⟨spacing, opener, body, closer, rest, hgroup, hmatched⟩ := groupAhead_cases c
      · rw [readGroup_of_startArgument?_eq_none ((startArgument?_groupOpen_eq_none_iff hc).mpr hnone)] at h
        cases h
      · rw [hgroup.readGroup_of_unmatched hnone] at h
        cases h
      · rw [hgroup.readGroup_of_matched hmatched] at h
        cases h
        exact ⟨spacing, opener, body, closer, rest, hgroup, hmatched, rfl, rfl,
          by simp [Cursor.past, Cursor.lastStop]⟩
    · rintro ⟨spacing, opener, body, closer, rest, hgroup, hmatched, rfl, rfl, -⟩
      exact hgroup.readGroup_of_matched hmatched
  · intro failure
    constructor
    · intro h
      obtain hnone | ⟨spacing, opener, more, hgroup, hnone⟩ |
        ⟨spacing, opener, body, closer, rest, hgroup, hmatched⟩ := groupAhead_cases c
      · have hstart := (startArgument?_groupOpen_eq_none_iff hc).mpr hnone
        rw [readGroup_of_startArgument?_eq_none hstart] at h
        exact .inl ⟨hstart, hnone, (Except.error.inj h).symm⟩
      · rw [hgroup.readGroup_of_unmatched hnone] at h
        exact .inr ⟨spacing, opener, more, hgroup, hnone, (Except.error.inj h).symm⟩
      · rw [hgroup.readGroup_of_matched hmatched] at h
        cases h
    · rintro (⟨hstart, -, rfl⟩ | ⟨spacing, opener, more, hgroup, hnone, rfl⟩)
      · exact readGroup_of_startArgument?_eq_none hstart
      · exact hgroup.readGroup_of_unmatched hnone

/-- Behind a space, an argument with a group in it, an escaped brace in the group and another brace in a
comment; neither of these closes anything. -/
theorem readGroup_exact_sample :
    let text : Text := "\\a \x7bb\x7b\\\x7d\x7d%\x7d\nc\x7dd"
    let c := (Cursor.ofTokens (text.tokens true)).advance
    let owner : Marker := (Cursor.ofTokens (text.tokens true)).marker
    c.Terminated ∧ readGroup text.toArray owner (missingArgument owner) c
        = .ok ("b\x7b\x7d\x7d\nc", c.advanceBy 10) ∧
      ∃ spacing opener body closer rest, GroupAhead c spacing opener (body ++ closer :: rest) ∧
        Matched body closer ∧ ("b\x7b\x7d\x7d\nc" : Text) = body.flatMap (Source.piece text.toArray) ∧
        c.advanceBy 10 = c.past (spacing ++ opener :: (body ++ [closer])) rest ∧
        (c.advanceBy 10).lastStop = closer.stop := by
  intro text c owner
  have hc : c.final.kind = .endOfFile := by decide +kernel
  have hread : readGroup text.toArray owner (missingArgument owner) c
      = .ok ("b\x7b\x7d\x7d\nc", c.advanceBy 10) := by decide +kernel
  exact ⟨hc, hread, ((readGroup_exact hc text.toArray owner (missingArgument owner)).1 _ _).mp hread⟩

end Parse

end LatexMarkdown
