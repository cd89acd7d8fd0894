import LatexMarkdown.Proofs.Embedding.Content
import LatexMarkdown.Proofs.Embedding.Frame
/-!
  Arguments and mathematics read through a frame.

  `Follows` compares a computation with the same one through a frame: what succeeds goes on to
  succeed, what fails fails alike when nothing stands behind, and fails too when only barren tokens
  do.  Whatever reads a known stretch of tokens follows.
-/
namespace LatexMarkdown.Parse

/-- The second computation does what the first does, through the frame.  `ok` says what comes of a
success. -/
def Follows (φ : Frame) {α β : Type} (ok : α → Except Failure β → Prop) (x : Except Failure α)
    (y : Except Failure β) : Prop :=
  match x with
  | .ok a => ok a y
  | .error e =>
    (φ.ending? = none → y = .error (φ.failure e)) ∧ (Barren φ.tail → ∃ e', y = .error e')

/-- A success comes to the image of the result. -/
def Gives {α β : Type} (g : α → β) (a : α) (y : Except Failure β) : Prop := y = .ok (g a)

namespace Follows

variable {φ : Frame} {α β γ δ : Type} {g : α → β} {ok : γ → Except Failure δ → Prop}

theorem pure (a : α) : Follows φ (Gives g) (.ok a) (.ok (g a)) := rfl

/-- The same failure, moved. -/
theorem error (ok : γ → Except Failure δ → Prop) (e : Failure) :
    Follows φ ok (.error e) (.error (φ.failure e)) := ⟨fun _ => rfl, fun _ => ⟨_, rfl⟩⟩

theorem bind {x : Except Failure α} {y : Except Failure β} {k : α → Except Failure γ}
    {k' : β → Except Failure δ} (h : Follows φ (Gives g) x y)
    (hk : ∀ a, x = .ok a → Follows φ ok (k a) (k' (g a))) :
    Follows φ ok (x >>= k) (y >>= k') := by
  cases x with
  | ok a =>
    have hy : y = .ok (g a) := h
    rw [hy]
    exact hk a rfl
  | error e =>
    refine ⟨fun hnone => ?_, fun hbarren => ?_⟩
    · rw [h.1 hnone]
      rfl
    · obtain ⟨e', he'⟩ := h.2 hbarren
      rw [he']
      exact ⟨e', rfl⟩

end Follows

/-! ## Tails are not read -/

/-- Behind the space that may come before an argument, a tail has no bracket or brace. -/
theorem Inert.kind_stop {l : List Token} (h : Inert l) {t : Token}
    (ht : l[(l.takeWhile Token.isArgumentSpacing).length]? = some t) :
    t.kind = .newLine ∨ t.kind = .envBegin := by
  induction h with
  | nil => simp at ht
  | @blankLine u rest hu =>
    have hk := Token.kind_of_isBlankLine hu
    have hstop : u.isArgumentSpacing = false := by
      simp [Token.isArgumentSpacing, Token.isBlankText, hk, hu]
    rw [List.takeWhile_cons, hstop] at ht
    simp only [Bool.false_eq_true, if_false, List.length_nil, List.getElem?_cons_zero,
      Option.some.injEq] at ht
    exact .inl (ht ▸ hk)
  | @newLine u rest hu _ ih =>
    rw [List.takeWhile_cons] at ht
    cases hs : u.isArgumentSpacing with
    | true =>
      rw [hs, if_pos rfl, List.length_cons, List.getElem?_cons_succ] at ht
      exact ih ht
    | false =>
      simp only [hs, Bool.false_eq_true, if_false, List.length_nil, List.getElem?_cons_zero,
        Option.some.injEq] at ht
      exact .inl (ht ▸ hu)
  | @raw u rest hu _ =>
    have hstop : u.isArgumentSpacing = false := by
      simp [Token.isArgumentSpacing, Token.isBlankText, hu]
    rw [List.takeWhile_cons, hstop] at ht
    simp only [Bool.false_eq_true, if_false, List.length_nil, List.getElem?_cons_zero,
      Option.some.injEq] at ht
    exact .inr (ht ▸ hu)

/-- No optional argument ends in a tail. -/
theorem Inert.optionalArgumentLength? {l : List Token} (h : Inert l) (depth : Int) :
    Parse.optionalArgumentLength? depth l = none := by
  have hraw : ∀ l : List Token, (∀ u ∈ l, u.kind = .rawText) → ∀ depth,
      Parse.optionalArgumentLength? depth l = none := by
    intro l hl
    induction l with
    | nil => exact fun _ => rfl
    | cons u rest ih =>
      intro depth
      have hu := hl u List.mem_cons_self
      have hrest := ih fun v hv => hl v (List.mem_cons_of_mem _ hv)
      simp [Parse.optionalArgumentLength?, Token.isBlankLine, hu, hrest]
  induction h generalizing depth with
  | nil => rfl
  | blankLine hu => rw [Parse.optionalArgumentLength?, if_pos (.inr hu)]
  | newLine hu _ ih =>
    rw [Parse.optionalArgumentLength?]
    split
    · rfl
    · simp [hu, ih]
  | raw hu hrest =>
    simp [Parse.optionalArgumentLength?, Token.isBlankLine, hu, hraw _ hrest]

/-- No group ends in a barren tail. -/
theorem Barren.groupText? {l : List Token} (h : Barren l) (source : Source) (depth : Nat) :
    Parse.groupText? source depth l = none := by
  replace h := h.kind
  induction l with
  | nil => rfl
  | cons t rest ih =>
    have hrest := ih fun u hu => h u (List.mem_cons_of_mem _ hu)
    rcases h t List.mem_cons_self with hk | hk | hk <;> simp [Parse.groupText?, hk, hrest]

/-- Nothing is closed in a barren tail. -/
theorem Barren.textUpTo? {l : List Token} (h : Barren l) (source : Source)
    {closes : Token → Bool}
    (hc : ∀ t : Token, t.kind = .newLine ∨ t.kind = .envBegin ∨ t.kind = .rawText →
      closes t = false) :
    Parse.textUpTo? source closes l = none := by
  replace h := h.kind
  induction l with
  | nil => rfl
  | cons t rest ih =>
    have hrest := ih fun u hu => h u (List.mem_cons_of_mem _ hu)
    have ht := h t List.mem_cons_self
    have hend : t.kind ≠ .endOfFile := by rcases ht with hk | hk | hk <;> simp [hk]
    simp [Parse.textUpTo?, hc t ht, hrest, hend]

/-- Mathematics is not closed in a barren tail. -/
theorem Barren.readDollars {l : List Token} (h : Barren l) (source : Source) (opener : Marker)
    (index : Nat) (pieces : List Text) :
    ∃ e, Parse.readDollars source opener index pieces l = .error e := by
  replace h := h.kind
  induction l generalizing index pieces with
  | nil => exact ⟨_, rfl⟩
  | cons t rest ih =>
    obtain ⟨e, he⟩ := ih (index + 1) (source.raw t :: pieces)
      fun u hu => h u (List.mem_cons_of_mem _ hu)
    refine ⟨e, ?_⟩
    rcases h t List.mem_cons_self with hk | hk | hk <;>
      simp [Parse.readDollars, hk, he]

namespace Frame

variable {φ : Frame} {ctx ctx' : Context} {c : Cursor}

/-! ## Optional arguments -/

theorem lookahead_cursor {n : Nat} (h : φ.ending? = none ∨ n < c.ahead.length) :
    (φ.cursor c).lookahead n = φ.token (c.lookahead n) := by
  rw [Cursor.lookahead, Cursor.lookahead]
  by_cases hn : n < c.ahead.length
  · have hget : (φ.cursor c).ahead[n]? = some (φ.token c.ahead[n]) := by
      simp [cursor, List.getElem?_append, hn]
    rw [hget, List.getElem?_eq_getElem hn]
    rfl
  · have hnone := h.resolve_right hn
    have hget : (φ.cursor c).ahead[n]? = none := by
      simp only [cursor, tail_of_none hnone, List.append_nil]
      simpa using hn
    rw [hget, List.getElem?_eq_none (by omega)]
    simp [cursor, hnone]

/-- An argument begins at the same token. -/
theorem startArgument?_cursor (hφ : φ.Lawful) (hc : c.Terminated) {kind : TokenKind}
    (hk : kind = .groupOpen ∨ kind = .bracketOpen) :
    startArgument? kind (φ.cursor c) = (startArgument? kind c).map φ.cursor := by
  have hcount := countWhile_cursor (φ := φ) (p := Token.isArgumentSpacing) (fun _ => rfl) c
  have hle := countWhile_le Token.isArgumentSpacing c
  unfold startArgument?
  by_cases h : φ.ending? = none ∨ c.countWhile Token.isArgumentSpacing < c.ahead.length
  · have hsame : (φ.cursor c).countWhile Token.isArgumentSpacing
        = c.countWhile Token.isArgumentSpacing := by
      rw [hcount]
      split
      · next hall =>
        rcases h with hnone | hlt
        · rw [tail_of_none hnone, hall]
          rfl
        · omega
      · rfl
    simp only [hsame, lookahead_cursor h, kind_token, advanceBy_cursor (.inr hle)]
    split <;> rfl
  · -- Nothing but space is left of the list.
    obtain ⟨hending, hge⟩ := not_or.mp h
    have hall : c.countWhile Token.isArgumentSpacing = c.ahead.length := by omega
    obtain ⟨⟨tail, last⟩, hending⟩ := Option.ne_none_iff_exists'.mp hending
    have htail : φ.tail = tail := by rw [Frame.tail, hending]; rfl
    have hlast := hφ.final_eq tail last hending
    have hne : (c.lookahead c.ahead.length).kind ≠ kind := by
      have hfinal : c.lookahead c.ahead.length = c.final := by
        rw [Cursor.lookahead, List.getElem?_eq_none (Nat.le_refl _)]
        rfl
      rw [hfinal, hc]
      rcases hk with rfl | rfl <;> simp
    have hframed : ((φ.cursor c).lookahead (c.ahead.length
        + (φ.tail.takeWhile Token.isArgumentSpacing).length)).kind ≠ kind := by
      have hget : (φ.cursor c).ahead[c.ahead.length
          + (φ.tail.takeWhile Token.isArgumentSpacing).length]?
          = φ.tail[(φ.tail.takeWhile Token.isArgumentSpacing).length]? := by
        have hlen : (c.ahead.map φ.token).length ≤ c.ahead.length
            + (φ.tail.takeWhile Token.isArgumentSpacing).length := by
          rw [List.length_map]
          omega
        rw [cursor, List.getElem?_append_right hlen, List.length_map, Nat.add_sub_cancel_left]
      rw [Cursor.lookahead, hget]
      cases ht : φ.tail[(φ.tail.takeWhile Token.isArgumentSpacing).length]? with
      | none =>
        have hfinal : (φ.cursor c).final = last := by simp [cursor, hending]
        rw [Option.getD_none, hfinal, hlast]
        rcases hk with rfl | rfl <;> simp
      | some t =>
        rw [Option.getD_some]
        rcases hφ.inert.kind_stop ht with ht | ht <;> rw [ht] <;>
          rcases hk with rfl | rfl <;> simp
    rw [if_pos hall] at hcount
    simp only [hcount, hall, hne, hframed, if_false]
    rfl

/-- The length of an optional argument does not depend on what stands behind. -/
theorem optionalArgumentLength?_append (hφ : φ.Lawful) (depth : Int) (l : List Token) :
    optionalArgumentLength? depth (l.map φ.token ++ φ.tail) = optionalArgumentLength? depth l := by
  induction l generalizing depth with
  | nil => exact hφ.inert.optionalArgumentLength? depth
  | cons t rest ih =>
    rw [List.map_cons, List.cons_append, optionalArgumentLength?, optionalArgumentLength?]
    simp only [kind_token, isBlankLine_token, ih]

theorem length_le_of_optionalArgumentLength? {depth : Int} {l : List Token} {n : Nat}
    (h : optionalArgumentLength? depth l = some n) : n ≤ l.length := by
  induction l generalizing depth n with
  | nil => simp [optionalArgumentLength?] at h
  | cons t rest ih =>
    have hnext : ∀ depth : Int,
        (if t.kind = .bracketClose ∧ depth ≤ 0 then some 1
          else (optionalArgumentLength? depth rest).map (· + 1)) = some n →
        n ≤ (t :: rest).length := by
      intro depth hn
      rw [List.length_cons]
      split at hn
      · cases Option.some.inj hn
        omega
      · obtain ⟨m, hm, rfl⟩ := Option.map_eq_some_iff.mp hn
        have hle := ih hm
        omega
    rw [optionalArgumentLength?] at h
    split at h
    · exact absurd h (by simp)
    · exact hnext _ h

/-- The tokens of a list behind its first one, through the frame. -/
theorem tail_ahead_cursor (h : c.ahead ≠ []) :
    (φ.cursor c).ahead.tail = c.ahead.tail.map φ.token ++ φ.tail := by
  obtain ⟨t, rest, ha⟩ := List.exists_cons_of_ne_nil h
  simp [cursor, ha]

/-- An optional argument is skipped alike. -/
theorem skipOptionalArgument_cursor (hφ : φ.Lawful) (hc : c.Terminated) :
    skipOptionalArgument (φ.cursor c) = φ.cursor (skipOptionalArgument c) := by
  unfold skipOptionalArgument
  rw [startArgument?_cursor hφ hc (.inr rfl)]
  cases hs : startArgument? .bracketOpen c with
  | none => rfl
  | some opened =>
    have hopened := (reaches_of_startArgument? hs).terminated hc
    have hne : opened.ahead ≠ [] :=
      Cursor.ahead_ne_nil hopened (by rw [kind_of_startArgument? hs]; simp)
    rw [Option.map_some]
    simp only [tail_ahead_cursor hne, optionalArgumentLength?_append hφ]
    cases hn : optionalArgumentLength? 0 opened.ahead.tail with
    | none => rfl
    | some n =>
      have hle := length_le_of_optionalArgumentLength? hn
      have hpos := List.length_pos_iff.mpr hne
      rw [List.length_tail] at hle
      exact advanceBy_cursor (.inr (by omega))

/-! ## Arguments in braces -/

variable {source source' : Source}

theorem raw_token {t : Token} (h : source'.spelling (φ.token t) = source.spelling t) :
    source'.raw (φ.token t) = source.raw t := by
  rw [Source.raw, Source.raw, h, kind_token]

/-- The text of a group does not depend on what stands behind it. -/
theorem groupText?_append {l : List Token}
    (h : ∀ t ∈ l, source'.spelling (φ.token t) = source.spelling t) (depth : Nat)
    (hend : φ.tail = [] ∨ Barren φ.tail ∨ (groupText? source depth l).isSome = true) :
    groupText? source' depth (l.map φ.token ++ φ.tail) = groupText? source depth l := by
  induction l generalizing depth with
  | nil =>
    rcases hend with hnil | hbarren | hsome
    · rw [hnil]
      rfl
    · exact hbarren.groupText? source' depth
    · exact absurd hsome (by simp [groupText?])
  | cons t rest ih =>
    have hraw := raw_token (h t List.mem_cons_self)
    have hmore := fun depth => ih (fun u hu => h u (List.mem_cons_of_mem _ hu)) depth
    rw [List.map_cons, List.cons_append]
    simp only [groupText?] at hend ⊢
    simp only [kind_token, escaped_token, text_token, hraw]
    -- Wherever the group goes on, its rest is there when the group is.
    cases hk : t.kind <;> simp only [hk, Option.isSome_map] at hend ⊢
    case groupClose =>
      cases depth with
      | zero => rfl
      | succ depth => exact congrArg (Option.map _) (hmore depth (by simpa using hend))
    all_goals rw [hmore _ hend]

theorem length_le_of_groupText? {depth : Nat} {l : List Token} {text : Text} {n : Nat}
    (h : groupText? source depth l = some (text, n)) : n ≤ l.length := by
  induction l generalizing depth text n with
  | nil => simp [groupText?] at h
  | cons t rest ih =>
    have hmore : ∀ {depth : Nat} {piece : Text},
        (groupText? source depth rest).map (fun r => (piece ++ r.1, r.2 + 1)) = some (text, n) →
        n ≤ (t :: rest).length := by
      intro depth piece hm
      obtain ⟨⟨text', m⟩, hm, heq⟩ := Option.map_eq_some_iff.mp hm
      have hle := ih hm
      have hn : m + 1 = n := congrArg Prod.snd heq
      rw [List.length_cons]
      omega
    simp only [groupText?] at h
    cases hk : t.kind <;> simp only [hk] at h
    case endOfFile => exact absurd h (by simp)
    case groupClose =>
      cases depth with
      | zero =>
        have hn : 1 = n := congrArg Prod.snd (Option.some.inj h)
        rw [List.length_cons]
        omega
      | succ depth => exact hmore h
    all_goals exact hmore h

/-- A required argument begins at the same token, or is missing alike. -/
theorem startGroup_cursor (hφ : φ.Lawful) (hc : c.Terminated) (owner : Marker) (flaw : Flaw) :
    Follows φ (Gives φ.cursor) (startGroup owner flaw c)
      (startGroup (φ.marker owner) flaw (φ.cursor c)) := by
  unfold startGroup
  rw [startArgument?_cursor hφ hc (.inl rfl)]
  cases startArgument? .groupOpen c with
  | none => exact .error _ ⟨flaw, owner⟩
  | some opened => exact .pure opened

theorem readGroup_cursor (hφ : φ.Lawful) (hc : φ.Carries ctx ctx' c) (owner : Marker)
    (flaw : Flaw) :
    Follows φ (Gives fun r => (r.1, φ.cursor r.2)) (readGroup ctx.source owner flaw c)
      (readGroup ctx'.source (φ.marker owner) flaw (φ.cursor c)) := by
  unfold readGroup
  refine (startGroup_cursor hφ hc.terminated owner flaw).bind fun opened ho => ?_
  have hreach := reaches_of_startGroup ho
  have hcarries := hc.of_reaches hreach
  have hkind := kind_of_startGroup ho
  have hne : opened.ahead ≠ [] := Cursor.ahead_ne_nil hcarries.terminated (by simp [hkind])
  have htext := @groupText?_append φ ctx.source ctx'.source opened.ahead.tail
    (fun t ht => hcarries.spelling t (List.mem_of_mem_tail ht)) 0
  rw [tail_ahead_cursor hne]
  cases hg : groupText? ctx.source 0 opened.ahead.tail with
  | some r =>
    obtain ⟨text, n⟩ := r
    rw [hg] at htext
    rw [htext (.inr (.inr rfl))]
    have hle := length_le_of_groupText? hg
    have hpos := List.length_pos_iff.mpr hne
    rw [List.length_tail] at hle
    show (.ok (text, (φ.cursor opened).advanceBy (n + 1)) : Except Failure (Text × Cursor)) = _
    rw [advanceBy_cursor (.inr (by omega))]
  | none =>
    rw [hg] at htext
    have hmarker := marker_cursor (φ := φ) (.inr hne)
    refine ⟨fun hnone => ?_, fun hbarren => ?_⟩
    · rw [htext (.inl (tail_of_none hnone)), hmarker]
      rfl
    · rw [htext (.inr (.inl hbarren))]
      exact ⟨_, rfl⟩

theorem skipGroups_cursor (hφ : φ.Lawful) (hc : φ.Carries ctx ctx' c) (owner : Marker)
    (flaw : Flaw) (count : Nat) :
    Follows φ (Gives φ.cursor) (skipGroups ctx.source owner flaw count c)
      (skipGroups ctx'.source (φ.marker owner) flaw count (φ.cursor c)) := by
  induction count generalizing c with
  | zero => exact .pure c
  | succ count ih =>
    unfold skipGroups
    refine (readGroup_cursor hφ hc owner flaw).bind fun r hr => ?_
    exact ih (hc.of_reaches (reaches_of_readGroup hr))

/-- A command that is dropped is dropped alike with its arguments. -/
theorem skipCommand_cursor (hφ : φ.Lawful) (hc : φ.Carries ctx ctx' c) (h : φ.Sees c)
    (count : Nat) :
    Follows φ (Gives φ.cursor) (skipCommand ctx.source count c)
      (skipCommand ctx'.source count (φ.cursor c)) := by
  have hadvance := hc.of_reaches (Cursor.Reaches.advance c)
  unfold skipCommand
  rw [marker_cursor h, missingArgument_marker, advance_cursor h,
    skipOptionalArgument_cursor hφ hadvance.terminated]
  exact skipGroups_cursor hφ (hadvance.of_reaches (reaches_skipOptionalArgument _)) _ _ count

/-! ## Mathematics -/

theorem textUpTo?_append {l : List Token} (closes closes' : Token → Bool)
    (h : ∀ t ∈ l, source'.spelling (φ.token t) = source.spelling t)
    (hcloses : ∀ t, closes' (φ.token t) = closes t)
    (hend : φ.tail = [] ∨ Parse.textUpTo? source' closes' φ.tail = none
      ∨ (textUpTo? source closes l).isSome = true) :
    textUpTo? source' closes' (l.map φ.token ++ φ.tail) = textUpTo? source closes l := by
  induction l with
  | nil =>
    rcases hend with hnil | hnone | hsome
    · rw [hnil]
      rfl
    · exact hnone
    · exact absurd hsome (by simp [textUpTo?])
  | cons t rest ih =>
    rw [List.map_cons, List.cons_append]
    simp only [textUpTo?, kind_token, hcloses] at hend ⊢
    split
    · rfl
    · next hk =>
      split
      · rfl
      · next hopen =>
        have hrest := ih (fun u hu => h u (List.mem_cons_of_mem _ hu))
          (by simpa [hk, hopen] using hend)
        rw [hrest, raw_token (h t List.mem_cons_self)]

theorem length_le_of_textUpTo? {closes : Token → Bool} {l : List Token} {text : Text} {n : Nat}
    (h : textUpTo? source closes l = some (text, n)) : n ≤ l.length := by
  induction l generalizing text n with
  | nil => simp [textUpTo?] at h
  | cons t rest ih =>
    rw [List.length_cons]
    rw [textUpTo?] at h
    split at h
    · exact absurd h (by simp)
    · split at h
      · have hn : 1 = n := congrArg Prod.snd (Option.some.inj h)
        omega
      · obtain ⟨⟨text', m⟩, hm, heq⟩ := Option.map_eq_some_iff.mp h
        have hle := ih hm
        have hn : m + 1 = n := congrArg Prod.snd heq
        omega

theorem mathSpan_offset (start stop : Nat) (body : Text) :
    mathSpan (φ.offset start) (φ.offset stop) body
      = (mathSpan start stop body).map (Inline.mapOffsets φ.offset) := by
  simp only [mathSpan]
  split
  · rfl
  · simp [Inline.mapOffsets, NodeInfo.mapOffsets, NodeInfo.span]

/-- Is it a delimiter of mathematics? -/
theorem closes_of_kind {kind : TokenKind} (hk : kind = .mathInline ∨ kind = .mathDisplay)
    {closer : Text} (t : Token)
    (ht : t.kind = .newLine ∨ t.kind = .envBegin ∨ t.kind = .rawText) :
    (t.kind == kind && t.text == closer) = false := by
  rcases ht with ht | ht | ht <;> rcases hk with rfl | rfl <;> simp [ht]

theorem readMath_cursor (hc : φ.Carries ctx ctx' c)
    (hk : c.current.kind = .mathInline ∨ c.current.kind = .mathDisplay) :
    Follows φ (Gives fun r => (r.1, φ.cursor r.2)) (readMath ctx.source c)
      (readMath ctx'.source (φ.cursor c)) := by
  have hne : c.ahead ≠ [] :=
    Cursor.ahead_ne_nil hc.terminated (by rcases hk with hk | hk <;> simp [hk])
  have htext := @textUpTo?_append φ ctx.source ctx'.source c.ahead.tail
    (fun t => t.kind == c.marker.token.kind && t.text == mathCloser c.marker.text)
    (fun t => t.kind == c.marker.token.kind && t.text == mathCloser c.marker.text)
    (fun t ht => hc.spelling t (List.mem_of_mem_tail ht)) (fun _ => rfl)
  simp only [readMath, marker_cursor (φ := φ) (.inr hne), tail_ahead_cursor hne, kind_marker,
    text_marker]
  generalize hclose : (fun t : Token =>
    t.kind == c.marker.token.kind && t.text == mathCloser c.marker.text) = closes at htext ⊢
  cases hr : textUpTo? ctx.source closes c.ahead.tail with
  | some r =>
    obtain ⟨text, n⟩ := r
    rw [hr] at htext
    rw [htext (.inr (.inr rfl))]
    have hle := length_le_of_textUpTo? hr
    have hpos := List.length_pos_iff.mpr hne
    rw [List.length_tail] at hle
    show (.ok (text.trim, (φ.cursor c).advanceBy (n + 1)) : Except Failure (Text × Cursor)) = _
    rw [advanceBy_cursor (.inr (by omega))]
  | none =>
    rw [hr] at htext
    refine ⟨fun hnone => ?_, fun hbarren => ?_⟩
    · rw [htext (.inl (tail_of_none hnone))]
      rfl
    · have hopen : Parse.textUpTo? ctx'.source closes φ.tail = none := by
        refine hbarren.textUpTo? _ fun t ht => ?_
        rw [← hclose]
        exact closes_of_kind hk t ht
      rw [htext (.inr (.inl hopen))]
      exact ⟨_, rfl⟩

theorem readDollars_append {l : List Token}
    (h : ∀ t ∈ l, source'.spelling (φ.token t) = source.spelling t) (opener : Marker)
    (index : Nat) (pieces : List Text) :
    Follows φ (Gives fun r => (r.1.map (Inline.mapOffsets φ.offset), r.2))
      (readDollars source opener index pieces l)
      (readDollars source' (φ.marker opener) (index + φ.index) pieces
        (l.map φ.token ++ φ.tail)) := by
  induction l generalizing opener index pieces with
  | nil =>
    refine ⟨fun hnone => ?_, fun hbarren => hbarren.readDollars _ _ _ _⟩
    rw [tail_of_none hnone]
    rfl
  | cons t rest ih =>
    have hrest := fun u hu => h u (List.mem_cons_of_mem t hu)
    have hindex : index + φ.index + 1 = index + 1 + φ.index := by omega
    rw [List.map_cons, List.cons_append]
    unfold readDollars
    simp only [kind_token, text_token, raw_token (h t List.mem_cons_self), text_marker,
      token_marker, start_token, stop_token, hindex]
    split
    · exact .error _ _
    split
    · exact congrArg (fun spans => Except.ok (spans, 1)) (mathSpan_offset _ _ _)
    split
    · -- The second half of the delimiter opens the next span.
      have hsucc : φ.offset t.start + 1 = φ.offset (t.start + 1) := by
        simp only [offset]
        omega
      rw [hsucc]
      refine Follows.bind (ih hrest ⟨{ t with
        kind := .mathInline, start := t.start + 1, text := "$" }, index⟩ (index + 1) [])
        fun r _ => ?_
      rw [mathSpan_offset]
      exact congrArg (fun spans => Except.ok (spans, r.2 + 1)) List.map_append.symm
    · refine (ih hrest opener (index + 1) _).bind fun r _ => ?_
      exact .pure (g := fun r => (r.1.map (Inline.mapOffsets φ.offset), r.2)) (r.1, r.2 + 1)

theorem length_le_of_readDollars {opener : Marker} {index : Nat} {pieces : List Text}
    {l : List Token} {spans : List Inline} {n : Nat}
    (h : readDollars source opener index pieces l = .ok (spans, n)) : n ≤ l.length := by
  induction l generalizing opener index pieces spans n with
  | nil => exact absurd h (by simp [readDollars])
  | cons t rest ih =>
    rw [List.length_cons]
    simp only [readDollars] at h
    split at h
    · exact absurd h (by simp)
    split at h
    · have hn : 1 = n := congrArg Prod.snd (Except.ok.inj h)
      omega
    split at h
    all_goals
      obtain ⟨⟨spans', m⟩, hm, h⟩ := exists_of_bind_ok h
      have hn : m + 1 = n := congrArg Prod.snd (Except.ok.inj h)
      have hle := ih hm
      omega

/-- Inline mathematics is read alike. -/
theorem readInlineMath_cursor (hφ : φ.Lawful) (hc : φ.Carries ctx ctx' c)
    (hk : c.current.kind = .mathInline ∨ c.current.kind = .mathDisplay) :
    Follows φ (Gives fun r => (r.1.map (Inline.mapOffsets φ.offset), φ.cursor r.2))
      (readInlineMath ctx.source c) (readInlineMath ctx'.source (φ.cursor c)) := by
  have hne : c.ahead ≠ [] :=
    Cursor.ahead_ne_nil hc.terminated (by rcases hk with hk | hk <;> simp [hk])
  unfold readInlineMath
  simp only [marker_cursor (φ := φ) (.inr hne), text_marker]
  split
  · have hindex : (φ.marker c.marker).index + 1 = c.marker.index + 1 + φ.index := by
      simp only [marker]
      omega
    rw [tail_ahead_cursor hne, hindex]
    refine (readDollars_append (fun t ht => hc.spelling t (List.mem_of_mem_tail ht)) c.marker
      (c.marker.index + 1) []).bind fun r hr => ?_
    have hle := length_le_of_readDollars hr
    have hpos := List.length_pos_iff.mpr hne
    rw [List.length_tail] at hle
    show (.ok (r.1.map _, (φ.cursor c).advanceBy (r.2 + 1)) : Except Failure _) = _
    rw [advanceBy_cursor (.inr (by omega))]
  · refine (readMath_cursor hc hk).bind fun r hr => ?_
    show (.ok (mathSpan _ (φ.cursor r.2).lastStop r.1, φ.cursor r.2) : Except Failure _) = _
    rw [lastStop_cursor hφ, token_marker, start_token, mathSpan_offset]

end Frame

end LatexMarkdown.Parse
