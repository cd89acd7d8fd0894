import LatexMarkdown.Proofs.Running
import Mathlib.Data.List.Induction
/-!
  Optional arguments, skipped whole or left alone.

  `OptionalArgument` is what the scan for one takes: spacing, an opening bracket, a body without a
  blank line, and the first closing bracket at a group depth of 0 or less.  `skipOptionalArgument`
  passes such a run of tokens when one stands ahead and otherwise leaves the cursor where it is.
  Depths below 0 are what the scan does not tell from 0: a brace that closes a group around the
  command is passed like any other token, and the bracket behind it closes the argument.

  Main statement: `skipOptionalArgument_all_or_nothing`.
-/
namespace LatexMarkdown

namespace Parse

variable {c : Cursor} {ts rest : List Token} {t : Token} {depth : Int} {n : Nat}

/-! ## Groups -/

/-- How many groups the tokens open more than they close; less than 0 where they close more. -/
def groupDepth : List Token → Int
  | [] => 0
  | t :: rest =>
    (match t.kind with
      | .groupOpen => 1
      | .groupClose => -1
      | _ => 0) + groupDepth rest

@[simp] theorem groupDepth_nil : groupDepth [] = 0 := rfl

theorem groupDepth_append (ts us : List Token) :
    groupDepth (ts ++ us) = groupDepth ts + groupDepth us := by
  induction ts with
  | nil => simp
  | cons t ts ih => simp only [List.cons_append, groupDepth, ih, Int.add_assoc]

theorem groupDepth_cons (t : Token) (ts : List Token) :
    groupDepth (t :: ts) = groupDepth [t] + groupDepth ts :=
  groupDepth_append [t] ts

/-- One token closes at most one group, and only a closing brace closes any. -/
theorem kind_of_groupDepth_neg (h : groupDepth [t] < 0) :
    t.kind = .groupClose ∧ groupDepth [t] = -1 := by
  cases hk : t.kind <;> simp_all [groupDepth]

/-- No prefix of the tokens closes more groups than it opens. -/
def Contained (ts : List Token) : Prop := ∀ inner, inner <+: ts → 0 ≤ groupDepth inner

/-- The tokens open every group that they close, or there is a first brace that closes a group which
was open before them. -/
theorem contained_or_exists (ts : List Token) :
    Contained ts ∨ ∃ inner brace outer, ts = inner ++ brace :: outer ∧
      brace.kind = .groupClose ∧ Contained inner ∧ groupDepth inner = 0 := by
  induction ts using List.reverseRecOn with
  | nil => exact .inl fun inner h => by simp [List.prefix_nil.mp h]
  | append_singleton ts t ih =>
    rcases ih with hts | ⟨inner, brace, outer, rfl, hbrace⟩
    · by_cases hdepth : 0 ≤ groupDepth (ts ++ [t])
      · refine .inl fun inner h => ?_
        rcases List.prefix_concat_iff.mp h with rfl | h
        · exact hdepth
        · exact hts inner h
      · have hbefore := hts ts List.prefix_rfl
        rw [groupDepth_append] at hdepth
        obtain ⟨hkind, hone⟩ := kind_of_groupDepth_neg (t := t) (by omega)
        exact .inr ⟨ts, t, [], rfl, hkind, hts, by omega⟩
    · exact .inr ⟨inner, brace, outer ++ [t], by simp, hbrace⟩

/-! ## What the scan takes -/

/-- From a group depth on, the body runs up to a closing bracket: it meets neither the end nor a
blank line, and the bracket is the first at a depth of 0 or less. -/
structure RunsTo (depth : Int) (body : List Token) (closer : Token) : Prop where
  unbroken : ∀ t ∈ body, t.kind ≠ .endOfFile ∧ t.isBlankLine = false
  kind_closer : closer.kind = .bracketClose
  closes : depth + groupDepth body ≤ 0
  first : ∀ inner bracket after, body = inner ++ bracket :: after → bracket.kind = .bracketClose →
    0 < depth + groupDepth inner

theorem runsTo_nil {closer : Token} :
    RunsTo depth [] closer ↔ closer.kind = .bracketClose ∧ depth ≤ 0 := by
  refine ⟨fun h => ⟨h.kind_closer, by simpa using h.closes⟩, fun ⟨hk, hd⟩ => ?_⟩
  exact ⟨by simp, hk, by simpa using hd, by simp⟩

theorem runsTo_cons {body : List Token} {closer : Token} :
    RunsTo depth (t :: body) closer ↔
      (t.kind ≠ .endOfFile ∧ t.isBlankLine = false) ∧ (t.kind = .bracketClose → 0 < depth) ∧
        RunsTo (depth + groupDepth [t]) body closer := by
  constructor
  · intro h
    refine ⟨h.unbroken t List.mem_cons_self, fun hk => by simpa using h.first [] t body rfl hk, ?_⟩
    refine ⟨fun u hu => h.unbroken u (List.mem_cons_of_mem t hu), h.kind_closer, ?_, ?_⟩
    · rw [Int.add_assoc, ← groupDepth_cons]
      exact h.closes
    · intro inner bracket after heq hk
      rw [Int.add_assoc, ← groupDepth_cons]
      exact h.first (t :: inner) bracket after (by rw [heq, List.cons_append]) hk
  · rintro ⟨ht, hbracket, h⟩
    refine ⟨List.forall_mem_cons.mpr ⟨ht, h.unbroken⟩, h.kind_closer, ?_, ?_⟩
    · rw [groupDepth_cons, ← Int.add_assoc]
      exact h.closes
    · intro inner bracket after heq hk
      cases inner with
      | nil =>
        obtain ⟨rfl, -⟩ := List.cons.inj heq
        simpa using hbracket hk
      | cons u inner =>
        obtain ⟨rfl, rfl⟩ := List.cons.inj heq
        rw [groupDepth_cons, ← Int.add_assoc]
        exact h.first inner bracket after rfl hk

/-- One round of the scan.  A closing bracket changes no depth. -/
theorem optionalArgumentLength?_round (depth : Int) (t : Token) (ts : List Token) :
    optionalArgumentLength? depth (t :: ts) =
      if t.kind = .endOfFile ∨ t.isBlankLine then none
      else if t.kind = .bracketClose ∧ depth ≤ 0 then some 1
      else (optionalArgumentLength? (depth + groupDepth [t]) ts).map (· + 1) := by
  rw [optionalArgumentLength?]
  cases hk : t.kind <;> simp [groupDepth, hk, Int.sub_eq_add_neg]

/-- The scan finds the body and the bracket that it runs to, and nothing else. -/
theorem optionalArgumentLength?_eq_some_iff :
    optionalArgumentLength? depth ts = some n ↔
      ∃ body closer rest, ts = body ++ closer :: rest ∧ n = body.length + 1 ∧
        RunsTo depth body closer := by
  induction ts generalizing depth n with
  | nil => simp [optionalArgumentLength?]
  | cons t ts ih =>
    rw [optionalArgumentLength?_round]
    constructor
    · intro h
      split at h
      · cases h
      · next hgoes =>
        obtain ⟨hend, hblank⟩ := not_or.mp hgoes
        split at h
        · next hclose =>
          cases h
          exact ⟨[], t, ts, rfl, rfl, runsTo_nil.mpr hclose⟩
        · next hclose =>
          obtain ⟨m, hm, rfl⟩ := Option.map_eq_some_iff.mp h
          obtain ⟨body, closer, rest, rfl, rfl, hruns⟩ := ih.mp hm
          have hbracket (hk : t.kind = .bracketClose) : 0 < depth :=
            Int.not_le.mp fun hd => hclose ⟨hk, hd⟩
          exact ⟨t :: body, closer, rest, rfl, rfl,
            runsTo_cons.mpr ⟨⟨hend, Bool.eq_false_iff.mpr hblank⟩, hbracket, hruns⟩⟩
    · rintro ⟨body, closer, rest, heq, rfl, hruns⟩
      cases body with
      | nil =>
        obtain ⟨rfl, rfl⟩ := List.cons.inj heq
        obtain ⟨hk, hd⟩ := runsTo_nil.mp hruns
        simp [hk, hd, Token.isBlankLine]
      | cons u body =>
        obtain ⟨rfl, rfl⟩ := List.cons.inj heq
        obtain ⟨⟨hend, hblank⟩, hbracket, hruns⟩ := runsTo_cons.mp hruns
        have hclose : ¬ (t.kind = .bracketClose ∧ depth ≤ 0) := fun ⟨hk, hd⟩ =>
          absurd (hbracket hk) (by omega)
        rw [if_neg (by simp [hend, hblank]), if_neg hclose, ih.mpr ⟨body, closer, rest, rfl, rfl, hruns⟩]
        rfl

/-- An optional argument and the spacing before it. -/
structure OptionalArgument where
  spacing : List Token
  opener : Token
  body : List Token
  closer : Token
  isArgumentSpacing : ∀ t ∈ spacing, t.isArgumentSpacing = true
  kind_opener : opener.kind = .bracketOpen
  runsTo : RunsTo 0 body closer

namespace OptionalArgument

/-- The tokens of the argument, from the spacing on. -/
def tokens (a : OptionalArgument) : List Token := a.spacing ++ a.opener :: (a.body ++ [a.closer])

theorem kind_ne_endOfFile (a : OptionalArgument) : ∀ t ∈ a.tokens, t.kind ≠ .endOfFile := by
  intro t ht
  simp only [tokens, List.mem_append, List.mem_cons, List.not_mem_nil, or_false] at ht
  rcases ht with ht | rfl | ht | rfl
  · exact Token.kind_ne_endOfFile_of_isArgumentSpacing (a.isArgumentSpacing t ht)
  · simp [a.kind_opener]
  · exact (a.runsTo.unbroken t ht).1
  · simp [a.runsTo.kind_closer]

/-- The argument keeps to itself: its body closes the groups that it opens and no others, and its
closing bracket is the first one that stands in none of them. -/
structure WellNested (a : OptionalArgument) : Prop where
  contained : Contained a.body
  balanced : groupDepth a.body = 0
  first : ∀ inner bracket after, a.body = inner ++ bracket :: after →
    bracket.kind = .bracketClose → groupDepth inner ≠ 0

/-- The argument takes the closing brace of a group around it: the brace stands in the body, at
depth 0 and with no bracket before it that could close the argument. -/
def TakesBrace (a : OptionalArgument) : Prop :=
  ∃ inner brace outer, a.body = inner ++ brace :: outer ∧ brace.kind = .groupClose ∧
    Contained inner ∧ groupDepth inner = 0 ∧
    ∀ before bracket after, inner = before ++ bracket :: after → bracket.kind = .bracketClose →
      groupDepth before ≠ 0

theorem wellNested_iff (a : OptionalArgument) : a.WellNested ↔ Contained a.body := by
  refine ⟨WellNested.contained, fun h => ⟨h, ?_, fun inner bracket after heq hk => ?_⟩⟩
  · have hlow := h a.body List.prefix_rfl
    have hhigh := a.runsTo.closes
    omega
  · have := a.runsTo.first inner bracket after heq hk
    omega

/-- An argument fails to keep to itself in this way only. -/
theorem wellNested_iff_not_takesBrace (a : OptionalArgument) : a.WellNested ↔ ¬ a.TakesBrace := by
  constructor
  · rintro h ⟨inner, brace, outer, heq, hk, -, hzero, -⟩
    have hprefix : inner ++ [brace] <+: a.body := ⟨outer, by simp [heq]⟩
    have hdepth : groupDepth (inner ++ [brace]) = -1 := by
      simp [groupDepth_append, groupDepth, hzero, hk]
    have := h.contained _ hprefix
    omega
  · intro h
    by_contra hnested
    obtain ⟨inner, brace, outer, heq, hk, hinner, hzero⟩ :=
      (contained_or_exists a.body).resolve_left (mt a.wellNested_iff.mpr hnested)
    refine h ⟨inner, brace, outer, heq, hk, hinner, hzero, fun before bracket after hbefore hb => ?_⟩
    have := a.runsTo.first before bracket (after ++ brace :: outer) (by simp [heq, hbefore]) hb
    omega

end OptionalArgument

/-! ## Skipping -/

/-- An optional argument that stands ahead is passed. -/
theorem skipOptionalArgument_of_argument (a : OptionalArgument) (h : c.ahead = a.tokens ++ rest) :
    skipOptionalArgument c = c.past a.tokens rest := by
  have hopener : a.opener.isArgumentSpacing = false := by
    simp [Token.isArgumentSpacing, Token.isBlankText, a.kind_opener]
  have hahead : c.ahead = a.spacing ++ a.opener :: (a.body ++ a.closer :: rest) := by
    simp [h, OptionalArgument.tokens]
  have hlength : optionalArgumentLength? 0 (a.body ++ a.closer :: rest) = some (a.body.length + 1) :=
    optionalArgumentLength?_eq_some_iff.mpr ⟨a.body, a.closer, rest, rfl, rfl, a.runsTo⟩
  have hpast : c.advanceBy a.tokens.length = c.past a.tokens rest :=
    Cursor.advanceBy_length h a.kind_ne_endOfFile
  have hcount : a.tokens.length = a.spacing.length + (a.body.length + 1 + 1) := by
    simp [OptionalArgument.tokens]
  have hspacing : c.advanceBy a.spacing.length =
      c.past a.spacing (a.opener :: (a.body ++ a.closer :: rest)) :=
    Cursor.advanceBy_length hahead fun t ht =>
      Token.kind_ne_endOfFile_of_isArgumentSpacing (a.isArgumentSpacing t ht)
  rw [skipOptionalArgument, startArgument?_of_spacing _ hahead a.isArgumentSpacing hopener,
    if_pos a.kind_opener]
  simp only [Cursor.past, List.tail_cons, hlength]
  rw [← Cursor.past, ← hspacing, ← Cursor.advanceBy_add, ← hcount, hpast, Cursor.past]

/-- Where nothing but spacing stands ahead there is no optional argument. -/
theorem skipOptionalArgument_of_forall_isArgumentSpacing
    (h : ∀ t ∈ c.ahead, t.isArgumentSpacing = true) : skipOptionalArgument c = c := by
  rw [skipOptionalArgument, startArgument?_of_forall_isArgumentSpacing _ h]
  split
  · next opened hopened =>
    split at hopened
    · cases hopened
      rfl
    · cases hopened
  · rfl

/-- Where no optional argument stands ahead the cursor is left alone. -/
theorem skipOptionalArgument_of_forall_not
    (hnone : ∀ a : OptionalArgument, ¬ a.tokens <+: c.ahead) : skipOptionalArgument c = c := by
  obtain hall | ⟨spacing, t, rest, hsplit, hs, ht⟩ := argumentSpacing_cases c
  · exact skipOptionalArgument_of_forall_isArgumentSpacing hall
  · rw [skipOptionalArgument, startArgument?_of_spacing _ hsplit hs ht]
    by_cases hk : t.kind = .bracketOpen
    · rw [if_pos hk]
      simp only [Cursor.past, List.tail_cons]
      cases hlength : optionalArgumentLength? 0 rest with
      | none => rfl
      | some n =>
        obtain ⟨body, closer, after, rfl, -, hruns⟩ := optionalArgumentLength?_eq_some_iff.mp hlength
        refine absurd ⟨after, .trans ?_ hsplit.symm⟩ (hnone ⟨_, t, body, closer, hs, hk, hruns⟩)
        simp [OptionalArgument.tokens]
    · rw [if_neg hk]

/-- Skipping is all or nothing.  Where no optional argument stands ahead the cursor is left alone;
where one does it is passed, that and nothing more, and it is well nested unless it takes the closing
brace of a group around it. -/
theorem skipOptionalArgument_all_or_nothing (c : Cursor) :
    (skipOptionalArgument c = c ∧ ∀ a : OptionalArgument, ¬ a.tokens <+: c.ahead) ∨
      ∃ (a : OptionalArgument) (rest : List Token), c.ahead = a.tokens ++ rest ∧
        skipOptionalArgument c = c.past a.tokens rest ∧ (a.WellNested ↔ ¬ a.TakesBrace) := by
  by_cases h : ∃ a : OptionalArgument, a.tokens <+: c.ahead
  · obtain ⟨a, rest, hahead⟩ := h
    exact .inr ⟨a, rest, hahead.symm, skipOptionalArgument_of_argument a hahead.symm,
      a.wellNested_iff_not_takesBrace⟩
  · have hnone := not_exists.mp h
    exact .inl ⟨skipOptionalArgument_of_forall_not hnone, hnone⟩

/-- Not every argument passed is well nested: behind the line break in a formatting command whose
argument ends between the two brackets, the skip takes the closing brace of that argument. -/
theorem not_forall_skipOptionalArgument_wellNested :
    ¬ ∀ c : Cursor, skipOptionalArgument c = c ∨
      ∃ (a : OptionalArgument) (rest : List Token), c.ahead = a.tokens ++ rest ∧
        skipOptionalArgument c = c.past a.tokens rest ∧ a.WellNested := by
  intro hall
  let c : Cursor :=
    (Cursor.ofTokens (Text.tokens "\\textbf\x7ba\\\\[b\x7dc]" false)).advanceBy 4
  have hskip : (skipOptionalArgument c).index = c.index + 5 := by decide +kernel
  have hkinds : c.ahead.map (·.kind) =
      [.bracketOpen, .text, .groupClose, .text, .bracketClose] := by decide +kernel
  rcases hall c with hstays | ⟨a, rest, hahead, hpast, hnested⟩
  · rw [hstays] at hskip
    omega
  · have hlength : a.tokens.length = 5 := by
      have : c.index + a.tokens.length = c.index + 5 := by rw [← hskip, hpast]; rfl
      omega
    have hrest : rest = [] := by
      have := congrArg List.length hkinds
      rw [List.length_map, hahead, List.length_append, hlength] at this
      exact List.length_eq_zero_iff.mp (Nat.add_left_cancel this)
    rw [hahead, hrest, List.append_nil, OptionalArgument.tokens] at hkinds
    cases hspacing : a.spacing with
    | cons t ts =>
      have ht := a.isArgumentSpacing t (by simp [hspacing])
      rw [hspacing, List.cons_append, List.map_cons] at hkinds
      simp [Token.isArgumentSpacing, Token.isBlankText, (List.cons.inj hkinds).1] at ht
    | nil =>
      rw [hspacing, List.nil_append, List.map_cons, List.map_append] at hkinds
      have hbody : a.body.map (·.kind) = [.text, .groupClose, .text] :=
        List.append_inj_left' (List.cons.inj hkinds).2 rfl
      have hdepth := hnested.balanced
      obtain ⟨t, ts, heq, ht, hts⟩ := List.map_eq_cons_iff.mp hbody
      obtain ⟨u, us, rfl, hu, hus⟩ := List.map_eq_cons_iff.mp hts
      obtain ⟨v, vs, rfl, hv, hvs⟩ := List.map_eq_cons_iff.mp hus
      obtain rfl := List.map_eq_nil_iff.mp hvs
      simp [heq, groupDepth, ht, hu, hv] at hdepth

end Parse

end LatexMarkdown
