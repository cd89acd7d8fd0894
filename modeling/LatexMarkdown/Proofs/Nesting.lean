import LatexMarkdown.Proofs.Nesting.Stack
import LatexMarkdown.Proofs.Running
import Mathlib.Data.List.Forall2
/-!
  Reading agrees with the stack of open markers.

  Main statement: `Nesting.parse_balance`.  On sources of text, braces and block environments, reading
  a document comes to an end exactly when `Nesting.balance` does, and else fails with the same flaw
  at the same place.

  The reader has no such stack.  `Nesting.Holds` finds it in a state: the braces of the open
  paragraph on top of the open environments.  Every piece moves both alike; in between, a paragraph
  may be closed and spacing passed, which changes nothing in the stack.
-/
namespace LatexMarkdown.Nesting

open Parse (State Context Failure Brace OpenEnvironment OpenInline Surround nestingLimit)
open Parse.State (Leads)

/-! ## The stack in a state -/

/-- A marker stands in the token list at its index. -/
def Listed (tokens : List Token) (m : Marker) : Prop := tokens[m.index]? = some m.token

/-- A brace of a paragraph is the one opened at an offset. -/
structure MarksBrace (tokens : List Token) (offset : Nat) (b : Brace) : Prop where
  listed : Listed tokens b.marker
  text : b.marker.text = "\x7b"
  start : b.marker.token.start = offset
  kept : b.kept = false

/-- The begin marker of an open environment is the one at an offset. -/
structure MarksEnvironment (tokens : List Token) (x : BlockEnvironment × Nat) (m : Marker) :
    Prop where
  listed : Listed tokens m
  text : m.text = x.1.name
  start : m.token.start = x.2

/-- The stack of open braces and of the environments around them. -/
def stackOf (braces : List Nat) (environments : List (BlockEnvironment × Nat)) : List Opened :=
  braces.map .brace ++ environments.map fun x => .environment x.1 x.2

/-- The braces and environments that are open in a state.  Inline content is a paragraph at most. -/
structure Holds (tokens : List Token) (s : State) (braces : List Nat)
    (environments : List (BlockEnvironment × Nat)) : Prop where
  environments : List.Forall₂ (MarksEnvironment tokens) environments
    (s.environments.map (·.marker))
  inline : match s.inline? with
    | none => braces = []
    | some i => (∃ start, i.line = .paragraph start) ∧ i.arguments = [] ∧
        List.Forall₂ (MarksBrace tokens) braces i.run.braces

/-- The cursor stands in the token list. -/
structure Placed (tokens : List Token) (c : Cursor) : Prop where
  tokens_eq : c.passed.reverse ++ c.remaining = tokens
  index_eq : c.index = c.passed.length

/-- What a run comes to, said of the stack: the same flaw at the same marker, or none. -/
def Answers {α : Type} (tokens : List Token) (r : Except Failure α) (b : Except Complaint Unit) :
    Prop :=
  match r, b with
  | .ok _, .ok _ => True
  | .error f, .error (flaw, offset) =>
    f.flaw = flaw ∧ f.marker.token.start = offset ∧ Listed tokens f.marker
  | _, _ => False

variable {tokens : List Token} {s : State} {braces : List Nat}
  {environments : List (BlockEnvironment × Nat)} {ctx : Context}

theorem Placed.listed {c : Cursor} {t : Token} {ts : List Token} (h : Placed tokens c)
    (hr : c.remaining = t :: ts) : Listed tokens c.marker := by
  have hlen : c.passed.reverse.length = c.index := by
    rw [List.length_reverse, h.index_eq]
  rw [Listed, Cursor.marker, Cursor.current_of_remaining hr, ← h.tokens_eq, hr, ← hlen,
    List.getElem?_append_right (Nat.le_refl _), Nat.sub_self]
  rfl

theorem Placed.advance {c : Cursor} {t : Token} {ts : List Token} (h : Placed tokens c)
    (hr : c.remaining = t :: ts) (hts : ts ≠ []) (hk : t.kind ≠ .endOfFile) :
    Placed tokens c.advance := by
  obtain ⟨rest, ha, -⟩ := Cursor.ahead_of_remaining hr hts
  refine ⟨?_, ?_⟩
  · rw [Cursor.remaining_advance hr hts hk, Cursor.advance_of_ahead ha hk, List.reverse_cons,
      List.append_assoc, List.singleton_append, ← hr]
    exact h.tokens_eq
  · rw [Cursor.advance_of_ahead ha hk, List.length_cons, h.index_eq]

/-- Nothing of inline content is open. -/
theorem Holds.of_inline?_none (hi : s.inline? = none)
    (he : List.Forall₂ (MarksEnvironment tokens) environments (s.environments.map (·.marker))) :
    Holds tokens s [] environments := by
  refine ⟨he, ?_⟩
  rw [hi]

/-- A paragraph is open, with these braces. -/
theorem Holds.of_paragraph {i : OpenInline} {start : Nat} (hi : s.inline? = some i)
    (hl : i.line = .paragraph start) (ha : i.arguments = [])
    (hb : List.Forall₂ (MarksBrace tokens) braces i.run.braces)
    (he : List.Forall₂ (MarksEnvironment tokens) environments (s.environments.map (·.marker))) :
    Holds tokens s braces environments := by
  refine ⟨he, ?_⟩
  rw [hi]
  exact ⟨⟨start, hl⟩, ha, hb⟩

theorem Holds.congr {t : State} (h : Holds tokens s braces environments)
    (hi : t.inline? = s.inline?) (he : t.environments = s.environments) :
    Holds tokens t braces environments := by
  refine ⟨he ▸ h.environments, ?_⟩
  rw [hi]
  exact h.inline

/-- Where inline content is open, it is a paragraph. -/
theorem Holds.paragraph {i : OpenInline} (h : Holds tokens s braces environments)
    (hi : s.inline? = some i) :
    ∃ start, i.line = .paragraph start ∧ i.arguments = [] ∧
      List.Forall₂ (MarksBrace tokens) braces i.run.braces := by
  have hinline := h.inline
  rw [hi] at hinline
  obtain ⟨⟨start, hl⟩, ha, hb⟩ := hinline
  exact ⟨start, hl, ha, hb⟩

/-- Between blocks no braces are open. -/
theorem Holds.braces_eq_nil (h : Holds tokens s braces environments) (hi : s.inline? = none) :
    braces = [] := by
  have hinline := h.inline
  rwa [hi] at hinline

/-- As many constructs are open as the stack is tall. -/
theorem Holds.depth (h : Holds tokens s braces environments) :
    s.depth = (stackOf braces environments).length := by
  have henv := h.environments.length_eq
  rw [List.length_map] at henv
  rw [State.depth, stackOf, List.length_append, List.length_map, List.length_map, henv]
  cases hi : s.inline? with
  | none => simp [h.braces_eq_nil hi]
  | some i =>
    obtain ⟨start, hl, ha, hb⟩ := h.paragraph hi
    simp [OpenInline.depth, hl, ha, hb.length_eq, Parse.Line.depth, Nat.add_comm]

theorem markers_addBlocks (s : State) (blocks : List Block) :
    (s.addBlocks blocks).environments.map (·.marker) = s.environments.map (·.marker) := by
  unfold State.addBlocks
  split
  · rfl
  · next heq => rw [heq]; rfl

theorem markers_closeParagraph (s : State) (start : Nat) (f : Fragments) :
    (s.closeParagraph start f).environments.map (·.marker)
      = s.environments.map (·.marker) := by
  simp only [State.closeParagraph]
  split
  · rfl
  · rw [markers_addBlocks]

/-! ## Between blocks -/

/-- Without braces, where a paragraph ends, a run goes on between blocks. -/
theorem leads_between_blocks (ctx : Context) (h : Holds tokens s [] environments)
    (he : Surround.endsAt s.inList s.cursor.current .paragraph = true) :
    ∃ t, Leads ctx s t ∧ t.inline? = none ∧ t.cursor = s.cursor ∧
      Holds tokens t [] environments := by
  cases hi : s.inline? with
  | none => exact ⟨s, .refl s, hi, rfl, h⟩
  | some i =>
    obtain ⟨start, hl, ha, hb⟩ := h.paragraph hi
    refine ⟨_, .of_closeParagraph hi hl (List.forall₂_nil_left_iff.mp hb) ha he, by simp, by simp,
      .of_inline?_none (by simp) ?_⟩
    rw [markers_closeParagraph]
    exact h.environments

/-- The end of the source answers for what is open. -/
theorem answers_at_end (h : Holds tokens s [] environments) (hi : s.inline? = none)
    (hk : s.cursor.current.kind = .endOfFile) (ht : s.cursor.Terminated) (offset : Nat) :
    Answers tokens (s.outcome ctx ht) (balance (stackOf [] environments) offset []) := by
  have henv := h.environments
  cases hx : s.environments with
  | nil =>
    rw [hx] at henv
    have hnil : environments = [] := List.forall₂_nil_right_iff.mp henv
    rw [State.outcome_of_endOfFile hi hx hk ht, hnil]
    trivial
  | cons e outer =>
    rw [hx] at henv
    obtain ⟨x, below, hm, -, rfl⟩ := List.forall₂_cons_right_iff.mp henv
    have herror : s.step ctx = .error ⟨.unclosedEnvironment e.marker.text, e.marker⟩ := by
      rw [State.step_of_endOfFile hi hk, State.endDocument, hx]
      rfl
    rw [State.outcome_of_error ht herror]
    exact ⟨by rw [hm.text], hm.start, hm.listed⟩

/-! ## Text -/

theorem surround_of_nil {i : OpenInline} {start : Nat} (hl : i.line = .paragraph start)
    (ha : i.arguments = []) (hb : List.Forall₂ (MarksBrace tokens) [] i.run.braces) :
    i.surround = .paragraph := by
  have hb' := List.forall₂_nil_left_iff.mp hb
  simp [OpenInline.surround, hb', ha, hl]

theorem surround_of_cons {i : OpenInline} {offset : Nat}
    (hb : List.Forall₂ (MarksBrace tokens) (offset :: braces) i.run.braces) :
    ∃ b rest, i.run.braces = b :: rest ∧ MarksBrace tokens offset b ∧
      List.Forall₂ (MarksBrace tokens) braces rest ∧ i.surround = .group b.marker := by
  obtain ⟨b, rest, hm, hrest, heq⟩ := List.forall₂_cons_left_iff.mp hb
  exact ⟨b, rest, heq, hm, hrest, by simp [OpenInline.surround, heq]⟩

/-- Where no paragraph is open, a token of text or a brace begins one. -/
theorem step_begins_paragraph (hi : s.inline? = none) (hs : s.cursor.current.isSpacing = false)
    (hk : s.cursor.current.kind = .text ∨ s.cursor.current.kind = .groupOpen ∨
      s.cursor.current.kind = .groupClose) :
    s.step ctx =
      some <$> State.takeToken ctx
        { s with inline? := some { line := .paragraph s.cursor.current.start } }
        { line := .paragraph s.cursor.current.start } := by
  rw [State.step_of_inline?_none hi hs]
  have hends : Surround.paragraph.endsAt s.inList s.cursor.current = false := by
    rcases hk with hk | hk | hk <;> simp [Surround.endsAt, hk]
  rw [← State.beginParagraph_of_not_endsAt hends]
  rcases hk with hk | hk | hk <;> simp only [hk, State.beginBlock]

/-- A token of text or a brace is taken by the open paragraph or by one that it begins. -/
theorem step_takes (ctx : Context) (h : Holds tokens s braces environments)
    (hs : s.inline? = none → s.cursor.current.isSpacing = false)
    (hk : s.cursor.current.kind = .text ∨ s.cursor.current.kind = .groupOpen ∨
      (s.cursor.current.kind = .groupClose ∧ braces = [])) :
    ∃ t i, s.step ctx = some <$> State.takeToken ctx t i ∧ t.inline? = some i ∧
      t.cursor = s.cursor ∧ Holds tokens t braces environments := by
  cases hi : s.inline? with
  | none =>
    refine ⟨_, _, step_begins_paragraph hi (hs hi) (hk.imp_right (Or.imp_right And.left)), rfl, rfl,
      ?_⟩
    rw [h.braces_eq_nil hi]
    exact .of_paragraph rfl rfl rfl .nil h.environments
  | some i =>
    refine ⟨s, i, State.step_of_not_endsAt hi ?_, hi, rfl, h⟩
    obtain ⟨start, hl, ha, hb⟩ := h.paragraph hi
    cases braces with
    | nil =>
      rw [surround_of_nil hl ha hb]
      rcases hk with hk | hk | ⟨hk, -⟩ <;> simp [Surround.endsAt, hk]
    | cons offset braces =>
      obtain ⟨b, rest, -, -, -, hsurround⟩ := surround_of_cons hb
      rw [hsurround]
      rcases hk with hk | hk | ⟨-, hnil⟩
      · simp [Surround.endsAt, hk]
      · simp [Surround.endsAt, hk]
      · exact absurd hnil (by simp)

theorem Holds.gather {i : OpenInline} (h : Holds tokens s braces environments)
    (hi : s.inline? = some i) (c : Cursor) (f : Fragments) :
    Holds tokens (s.gather i c f) braces environments := by
  obtain ⟨start, hl, ha, hb⟩ := h.paragraph hi
  exact .of_paragraph rfl hl ha hb h.environments

/-- Taking text changes nothing that the stack sees. -/
theorem Holds.takeText {i : OpenInline} (h : Holds tokens s braces environments)
    (hi : s.inline? = some i) :
    Holds tokens (s.takeText i) braces environments ∧ (s.takeText i).cursor = s.cursor.advance := by
  obtain ⟨start, hl, ha, hb⟩ := h.paragraph hi
  simp only [State.takeText]
  split <;> exact ⟨.of_paragraph rfl hl ha hb h.environments, rfl⟩

/-- A token of text is passed and leaves the stack as it is. -/
theorem leads_past_text (ctx : Context) {t : Token} {ts : List Token} (h : Holds tokens s braces environments)
    (hr : s.cursor.remaining = t :: ts) (hts : ts ≠ []) (hk : t.kind = .text) :
    ∃ next, Leads ctx s next ∧ next.cursor = s.cursor.advance ∧
      Holds tokens next braces environments := by
  have hcur := Cursor.current_of_remaining hr
  obtain ⟨rest, hahead, -⟩ := Cursor.ahead_of_remaining hr hts
  by_cases hs : s.inline? = none ∧ t.isSpacing = true
  · -- Between blocks, blank text is nothing.
    exact ⟨_, .of_isSpacing hs.1 hahead hs.2, rfl, h.congr rfl rfl⟩
  · obtain ⟨next, i, hstep, hi, hcursor, hh⟩ := step_takes ctx h
      (fun hi => by rw [hcur]; simpa [hi] using hs) (.inl (hcur ▸ hk))
    have htake : next.takeToken ctx i = .ok (next.takeText i) := by
      simp only [State.takeToken, Cursor.marker, hcursor, hcur, hk]
    obtain ⟨hh', hc'⟩ := hh.takeText hi
    refine ⟨next.takeText i, .of_step ?_, by rw [hc', hcursor], hh'⟩
    rw [hstep, htake]
    rfl

/-- A line break is passed and leaves the stack as it is, whether it ends a paragraph or not. -/
theorem leads_past_newLine (ctx : Context) {t : Token} {ts : List Token} (h : Holds tokens s braces environments)
    (hr : s.cursor.remaining = t :: ts) (hts : ts ≠ []) (hk : t.kind = .newLine) :
    ∃ next, Leads ctx s next ∧ next.cursor = s.cursor.advance ∧
      Holds tokens next braces environments := by
  have hcur := Cursor.current_of_remaining hr
  obtain ⟨rest, hahead, -⟩ := Cursor.ahead_of_remaining hr hts
  have hspacing : t.isSpacing = true := by simp [Token.isSpacing, hk]
  cases hi : s.inline? with
  | none => exact ⟨_, .of_isSpacing hi hahead hspacing, rfl, h.congr rfl rfl⟩
  | some i =>
    obtain ⟨start, hl, ha, hb⟩ := h.paragraph hi
    by_cases he : i.surround.endsAt s.inList s.cursor.current = true
    · -- A blank line ends the paragraph, and is then passed between blocks.
      cases braces with
      | nil =>
        rw [surround_of_nil hl ha hb] at he
        obtain ⟨next, hlead, hi', hc', hh'⟩ := leads_between_blocks ctx h he
        exact ⟨_, hlead.trans (.of_isSpacing hi' (hc' ▸ hahead) hspacing), by simp [hc'],
          hh'.congr rfl rfl⟩
      | cons offset braces =>
        obtain ⟨b, rest, -, -, -, hsurround⟩ := surround_of_cons hb
        rw [hsurround, hcur] at he
        simp [Surround.endsAt, hk] at he
    · have htake : s.takeToken ctx i = .ok (s.takeSpace i) := by
        simp only [State.takeToken, Cursor.marker, hcur, hk]
      exact ⟨_, .of_takeToken hi (by simpa using he) htake, rfl, h.gather hi _ _⟩

/-! ## Markers -/

/-- A run moves as a stack does: it fails alike, or passes the current token with that stack. -/
def Moves (tokens : List Token) (ctx : Context) (s : State) (b : Except Complaint (List Opened)) :
    Prop :=
  match b with
  | .error (flaw, offset) =>
    ∃ t f, Leads ctx s t ∧ t.step ctx = .error f ∧ f.flaw = flaw ∧
      f.marker.token.start = offset ∧ Listed tokens f.marker
  | .ok stack =>
    ∃ t braces environments, Leads ctx s t ∧ t.cursor = s.cursor.advance ∧
      stack = stackOf braces environments ∧ Holds tokens t braces environments

variable {t : Token} {ts : List Token}

theorem moves_openBrace (h : Holds tokens s braces environments) (hp : Placed tokens s.cursor)
    (hr : s.cursor.remaining = t :: ts) (hk : t.kind = .groupOpen) (htext : t.text = "\x7b") :
    Moves tokens ctx s (Piece.openBrace.move t.start (stackOf braces environments)) := by
  have hcur := Cursor.current_of_remaining hr
  obtain ⟨next, i, hstep, hi, hcursor, hh⟩ := step_takes ctx h
    (fun _ => by simp [hcur, Token.isSpacing, Token.isBlankText, hk]) (.inr (.inl (hcur ▸ hk)))
  have htake : next.takeToken ctx i = next.openBrace i false := by
    simp only [State.takeToken, Cursor.marker, hcursor, hcur, hk]
  have hmarker : next.cursor.marker.token = t := by rw [hcursor, Cursor.marker, hcur]
  have hlisted : Listed tokens next.cursor.marker := hcursor ▸ hp.listed hr
  rw [htake] at hstep
  rw [Piece.move, push]
  by_cases hd : nestingLimit < (stackOf braces environments).length + 1
  · rw [if_pos hd]
    rw [State.openBrace_of_lt (hh.depth ▸ hd)] at hstep
    exact ⟨s, _, .refl s, hstep, rfl, by rw [hmarker], hlisted⟩
  · rw [if_neg hd]
    rw [State.openBrace_of_le (hh.depth ▸ Nat.not_lt.mp hd)] at hstep
    obtain ⟨start, hl, ha, hb⟩ := hh.paragraph hi
    refine ⟨_, t.start :: braces, environments, .of_step hstep, by rw [hcursor], rfl, ?_⟩
    exact .of_paragraph rfl hl ha
      (.cons ⟨hlisted, by rw [Marker.text, hmarker, htext], by rw [hmarker], rfl⟩ hb)
      hh.environments

theorem moves_closeBrace (h : Holds tokens s braces environments) (hp : Placed tokens s.cursor)
    (hr : s.cursor.remaining = t :: ts) (hk : t.kind = .groupClose) :
    Moves tokens ctx s (Piece.closeBrace.move t.start (stackOf braces environments)) := by
  have hcur := Cursor.current_of_remaining hr
  cases braces with
  | nil =>
    -- A closing brace closes no environment, so a paragraph cannot take it.
    have herror : Piece.closeBrace.move t.start (stackOf [] environments)
        = .error (.unexpectedGroupClose, t.start) := by
      cases environments <;> rfl
    obtain ⟨next, i, hstep, hi, hcursor, hh⟩ := step_takes ctx h
      (fun _ => by simp [hcur, Token.isSpacing, Token.isBlankText, hk])
      (.inr (.inr ⟨hcur ▸ hk, rfl⟩))
    have htake : next.takeToken ctx i = .error ⟨.unexpectedGroupClose, s.cursor.marker⟩ := by
      simp only [State.takeToken, Cursor.marker, hcursor, hcur, hk]
    rw [htake] at hstep
    rw [herror]
    refine ⟨s, _, .refl s, hstep, rfl, ?_, hp.listed hr⟩
    rw [Cursor.marker, hcur]
  | cons offset braces =>
    cases hi : s.inline? with
    | none => exact absurd (h.braces_eq_nil hi) (by simp)
    | some i =>
      obtain ⟨start, hl, ha, hb⟩ := h.paragraph hi
      obtain ⟨b, rest, heq, hm, hrest, hsurround⟩ := surround_of_cons hb
      have hclose : s.closeInline ctx i = .ok { s with
          cursor := s.cursor.advance
          inline? := some { i with run := { i.run with braces := rest } } } := by
        simp only [State.closeInline, heq, hm.kept]
        rfl
      refine ⟨_, braces, environments, .of_closeInline hi ?_ hclose, rfl, rfl,
        .of_paragraph rfl hl ha hrest h.environments⟩
      rw [hsurround, hcur]
      simp [Surround.endsAt, hk]

/-! ## Environments -/

theorem ofName?_name (e : BlockEnvironment) :
    EnvironmentKind.ofName? e.name = some .quote ∨
      EnvironmentKind.ofName? e.name = some .transparent := by
  cases e <;> decide

theorem environmentArgumentCount_name (e : BlockEnvironment) :
    environmentArgumentCount e.name = 0 := by
  cases e <;> decide

/-- Without an argument behind it, a begin marker opens an environment of blocks. -/
theorem beginEnvironment_name (ctx : Context) {e : BlockEnvironment} (hi : s.inline? = none)
    (he : s.cursor.marker.text = e.name) (hd : s.depth + 1 ≤ nestingLimit)
    (hb : ∀ t ∈ s.cursor.advance.remaining, t.kind ≠ .bracketOpen) :
    ∃ t, s.beginEnvironment ctx = .ok t ∧ t.inline? = none ∧ t.cursor = s.cursor.advance ∧
      t.environments.map (·.marker) = s.cursor.marker :: s.environments.map (·.marker) := by
  have hskip : State.skipArguments ctx s.cursor.advance s.cursor.marker = .ok s.cursor.advance := by
    rw [State.skipArguments, he, environmentArgumentCount_name,
      Parse.skipOptionalArgument_of_forall hb]
    rfl
  rcases ofName?_name e with hkind | hkind
  · refine ⟨s.pushEnvironment s.cursor.advance s.cursor.marker .quote, ?_, hi, rfl, rfl⟩
    simp only [State.beginEnvironment, State.checkDepth_of_le hd, he, hkind]
    rfl
  · refine ⟨s.pushEnvironment s.cursor.advance s.cursor.marker .inPlace, ?_, hi, rfl, rfl⟩
    simp only [State.beginEnvironment, State.checkDepth_of_le hd, he, hkind, State.beginInPlace,
      hskip]
    rfl

/-- Closing an environment leaves those around it. -/
theorem markers_closeEnvironment (s : State) (e : OpenEnvironment) (outer : List OpenEnvironment) :
    (s.closeEnvironment e outer).environments.map (·.marker) = outer.map (·.marker) := by
  simp only [State.closeEnvironment]
  split <;> rw [markers_addBlocks]

/-- Inside braces a marker of an environment cannot be taken. -/
theorem step_in_braces (ctx : Context) {offset : Nat} (h : Holds tokens s (offset :: braces) environments)
    (hk : s.cursor.current.kind ≠ .groupClose) :
    ∃ i b, MarksBrace tokens offset b ∧ i.surround = .group b.marker ∧
      s.step ctx = some <$> s.takeToken ctx i := by
  cases hi : s.inline? with
  | none => exact absurd (h.braces_eq_nil hi) (by simp)
  | some i =>
    obtain ⟨start, hl, ha, hb⟩ := h.paragraph hi
    obtain ⟨b, rest, -, hm, -, hsurround⟩ := surround_of_cons hb
    refine ⟨i, b, hm, hsurround, State.step_of_not_endsAt hi ?_⟩
    rw [hsurround]
    simpa [Surround.endsAt] using hk

/-- Where an environment or the source ends, the innermost open brace is left open. -/
theorem moves_unclosed_group {offset : Nat} (h : Holds tokens s (offset :: braces) environments)
    (hk : s.cursor.current.kind = .endOfFile ∨ s.cursor.current.kind = .envEnd) :
    Moves tokens ctx s (.error (Opened.brace offset).unclosed) := by
  obtain ⟨i, b, hm, hsurround, hstep⟩ := step_in_braces ctx h
    (by rcases hk with hk | hk <;> simp [hk])
  have htake : s.takeToken ctx i = .error ⟨.unclosedGroup b.marker.text, b.marker⟩ := by
    rcases hk with hk | hk <;>
      simp only [State.takeToken, Cursor.marker, hk, hsurround, Surround.opener]
  rw [htake] at hstep
  exact ⟨s, _, .refl s, hstep, by rw [hm.text], hm.start, hm.listed⟩

theorem moves_begins {e : BlockEnvironment} (h : Holds tokens s braces environments)
    (hp : Placed tokens s.cursor) (hr : s.cursor.remaining = t :: ts) (hts : ts ≠ [])
    (hk : t.kind = .envBegin) (htext : t.text = e.name) (hb : ∀ t ∈ ts, t.kind ≠ .bracketOpen) :
    Moves tokens ctx s ((Piece.begins e).move t.start (stackOf braces environments)) := by
  have hcur := Cursor.current_of_remaining hr
  have hlisted := hp.listed hr
  cases braces with
  | cons offset braces =>
    obtain ⟨i, b, -, -, hstep⟩ := step_in_braces ctx h (by simp [hcur, hk])
    have htake : s.takeToken ctx i = .error ⟨.nestedEnvironment e.name, s.cursor.marker⟩ := by
      simp only [State.takeToken, Cursor.marker, hcur, hk, Marker.text, htext]
    rw [htake] at hstep
    exact ⟨s, _, .refl s, hstep, rfl, by rw [Cursor.marker, hcur], hlisted⟩
  | nil =>
    have hmove : (Piece.begins e).move t.start (stackOf [] environments)
        = push (.environment e t.start) t.start (stackOf [] environments) := by
      cases environments <;> rfl
    -- The marker ends an open paragraph first.
    obtain ⟨between, hlead, hi, hc, hh⟩ := leads_between_blocks ctx h
      (by simp [Surround.endsAt, hcur, hk])
    have hcur' : between.cursor.current = t := hc ▸ hcur
    have hstep : between.step ctx = _ := State.step_of_envBegin hi (hcur' ▸ hk)
    have hmarker : between.cursor.marker = s.cursor.marker := by rw [hc]
    have hname : between.cursor.marker.text = e.name := by
      rw [Marker.text, Cursor.marker, hcur', htext]
    rw [hmove, push, ← hh.depth]
    by_cases hd : nestingLimit < between.depth + 1
    · rw [if_pos hd]
      have hbegin : between.beginEnvironment ctx
          = .error ⟨.nestingTooDeep nestingLimit, s.cursor.marker⟩ := by
        simp only [State.beginEnvironment, State.checkDepth_of_lt hd, hmarker]
        rfl
      rw [hbegin] at hstep
      exact ⟨between, _, hlead, hstep, rfl, by rw [Cursor.marker, hcur], hlisted⟩
    · rw [if_neg hd]
      obtain ⟨next, hbegin, hi', hc', hmarkers⟩ := beginEnvironment_name ctx hi hname
        (Nat.not_lt.mp hd)
        (by rw [hc, Cursor.remaining_advance hr hts (by simp [hk])]; exact hb)
      rw [hbegin] at hstep
      refine ⟨next, [], (e, t.start) :: environments, hlead.trans (.of_step hstep), by rw [hc', hc],
        rfl, .of_inline?_none hi' ?_⟩
      rw [hmarkers, hmarker]
      exact .cons ⟨hlisted, by rw [← hmarker, hname], by rw [Cursor.marker, hcur]⟩ hh.environments

theorem moves_ends {e : BlockEnvironment} (h : Holds tokens s braces environments)
    (hp : Placed tokens s.cursor) (hr : s.cursor.remaining = t :: ts) (hk : t.kind = .envEnd)
    (htext : t.text = e.name) :
    Moves tokens ctx s ((Piece.ends e).move t.start (stackOf braces environments)) := by
  have hcur := Cursor.current_of_remaining hr
  have hlisted := hp.listed hr
  cases braces with
  | cons offset braces => exact moves_unclosed_group h (.inr (hcur ▸ hk))
  | nil =>
    obtain ⟨between, hlead, hi, hc, hh⟩ := leads_between_blocks ctx h
      (by simp [Surround.endsAt, hcur, hk])
    have hcur' : between.cursor.current = t := hc ▸ hcur
    have hstep : between.step ctx = _ := State.step_of_envEnd hi (hcur' ▸ hk)
    have hmarker : between.cursor.marker = s.cursor.marker := by rw [hc]
    have hstart : s.cursor.marker.token.start = t.start := by rw [Cursor.marker, hcur]
    have hname : between.cursor.marker.text = e.name := by
      rw [Marker.text, Cursor.marker, hcur', htext]
    have henv := hh.environments
    cases hx : between.environments with
    | nil =>
      rw [hx] at henv
      obtain rfl : environments = [] := List.forall₂_nil_right_iff.mp henv
      have hend : between.endEnvironment
          = .error ⟨.unexpectedEnvironmentEnd e.name, s.cursor.marker⟩ := by
        simp only [State.endEnvironment, hx]
        rw [hname, hmarker]
      rw [hend] at hstep
      exact ⟨between, _, hlead, hstep, rfl, hstart, hlisted⟩
    | cons opened outer =>
      rw [hx] at henv
      obtain ⟨⟨d, opener⟩, below, hm, hbelow, rfl⟩ := List.forall₂_cons_right_iff.mp henv
      have hopened : opened.marker.text = d.name := hm.text
      show Moves tokens ctx s
        (if d = e then .ok (stackOf [] below)
          else .error (.mismatchedEnvironment e.name d.name, t.start))
      by_cases hde : d = e
      · rw [if_pos hde]
        have hend : between.endEnvironment = .ok (between.closeEnvironment opened outer) := by
          simp only [State.endEnvironment, hx]
          rw [if_pos (by rw [hname, hopened, hde])]
        rw [hend] at hstep
        refine ⟨_, [], below, hlead.trans (.of_step hstep),
          by rw [State.cursor_closeEnvironment, hc], rfl, .of_inline?_none ?_ ?_⟩
        · rw [State.inline?_closeEnvironment, hi]
        · rw [markers_closeEnvironment]
          exact hbelow
      · rw [if_neg hde]
        have hend : between.endEnvironment
            = .error ⟨.mismatchedEnvironment e.name d.name, s.cursor.marker⟩ := by
          simp only [State.endEnvironment, hx]
          rw [if_neg (by rw [hname, hopened]; exact fun heq => hde (name_injective heq).symm),
            hname, hopened, hmarker]
        rw [hend] at hstep
        exact ⟨between, _, hlead, hstep, rfl, hstart, hlisted⟩

/-! ## Whole sources -/

/-- A move that fails is where a run fails. -/
theorem Moves.answers_error {complaint : Complaint} (h : Moves tokens ctx s (.error complaint))
    (ht : s.cursor.Terminated) : Answers tokens (s.outcome ctx ht) (.error complaint) := by
  obtain ⟨t, f, hlead, hstep, hflaw, hstart, hlisted⟩ := h
  obtain ⟨ht', heq⟩ := hlead ht
  rw [heq, State.outcome_of_error ht' hstep]
  exact ⟨hflaw, hstart, hlisted⟩

/-- The move at a token decides what a run comes to, if what is behind the token does. -/
theorem Moves.answers {b : Except Complaint (List Opened)} {rest : List Piece} {offset : Nat}
    (h : Moves tokens ctx s b) (ht : s.cursor.Terminated)
    (hrest : ∀ (t : State) (braces : List Nat) (environments : List (BlockEnvironment × Nat))
      (ht : t.cursor.Terminated), t.cursor = s.cursor.advance → Holds tokens t braces environments →
      Answers tokens (t.outcome ctx ht) (balance (stackOf braces environments) offset rest)) :
    Answers tokens (s.outcome ctx ht) (b >>= fun stack => balance stack offset rest) := by
  cases b with
  | error complaint => exact h.answers_error ht
  | ok stack =>
    obtain ⟨t, braces, environments, hlead, hc, rfl, hh⟩ := h
    obtain ⟨ht', heq⟩ := hlead ht
    rw [heq]
    exact hrest t braces environments ht' hc hh

/-- Every marker and line feed moves a run as it moves the stack. -/
theorem moves_marker {p : Piece} {keep : Bool} {m m' : LineMark} {offset offset' : Nat}
    {rest : List Piece} (hplain : p.isPlain = false) (h : Holds tokens s braces environments)
    (hp : Placed tokens s.cursor)
    (hr : s.cursor.remaining = p.lexeme.toToken m offset
      :: Text.tokensFrom keep .normal m' offset' (spell rest)) :
    Moves tokens ctx s (p.move offset (stackOf braces environments)) := by
  have hts := Text.tokensFrom_ne_nil keep .normal m' offset' (spell rest)
  cases p with
  | plain u hu => exact absurd hplain (by simp [Piece.isPlain])
  | lineFeed =>
    obtain ⟨t, hlead, hc, hh⟩ := leads_past_newLine ctx h hr hts rfl
    exact ⟨t, braces, environments, hlead, hc, rfl, hh⟩
  | openBrace => exact moves_openBrace h hp hr rfl (show ([0x7B] : Text) = "\x7b" by decide)
  | closeBrace => exact moves_closeBrace h hp hr rfl
  | begins e =>
    have hb := Text.kind_ne_bracketOpen (bracket_not_mem_spell rest) keep .normal m' offset'
    exact moves_begins h hp hr hts rfl rfl hb
  | ends e => exact moves_ends h hp hr rfl rfl

/-- A run over the tokens of pieces answers as the stack does. -/
theorem answers_run {keep : Bool} (pieces : List Piece) (m : LineMark) (offset : Nat) (s : State)
    (braces : List Nat) (environments : List (BlockEnvironment × Nat)) (ht : s.cursor.Terminated)
    (hp : Placed tokens s.cursor)
    (hr : s.cursor.remaining = Text.tokensFrom keep .normal m offset (spell pieces))
    (h : Holds tokens s braces environments) :
    Answers tokens (s.outcome ctx ht) (balance (stackOf braces environments) offset pieces) := by
  induction pieces using run_induction generalizing m offset s braces environments with
  | nil =>
    have hk : s.cursor.current.kind = .endOfFile := by
      rw [spell, List.flatMap_nil, Text.tokensFrom] at hr
      rw [Cursor.current_of_remaining hr]
      rfl
    cases braces with
    | nil =>
      obtain ⟨t, hlead, hi, hc, hh⟩ := leads_between_blocks ctx h
        (by simp [Surround.endsAt, hk])
      obtain ⟨ht', heq⟩ := hlead ht
      rw [heq]
      exact answers_at_end hh hi (hc ▸ hk) ht' offset
    | cons opener braces => exact (moves_unclosed_group h (.inl hk)).answers_error ht
  | marker p rest hplain ih =>
    rw [tokensFrom_marker hplain] at hr
    rw [balance]
    refine (moves_marker hplain h hp hr).answers ht fun t braces environments ht' hc hh => ?_
    have hk : (p.lexeme.toToken m offset).kind ≠ .endOfFile := by
      cases p <;> simp [Piece.lexeme, Lexeme.toToken, markerLexeme, Lexeme.markerKind]
    have hts := Text.tokensFrom_ne_nil keep .normal (m.after p.lexeme) (offset + p.spell.length)
      (spell rest)
    exact ih _ _ t braces environments ht' (hc ▸ hp.advance hr hts hk)
      (by rw [hc, Cursor.remaining_advance hr hts hk]) hh
  | run run rest hne hrun hrest ih =>
    rw [tokensFrom_run hne hrun hrest] at hr
    have hts := Text.tokensFrom_ne_nil keep .normal (m.after (runLexeme run))
      (offset + (spell run).length) (spell rest)
    have hk : ((runLexeme run).toToken m offset).kind ≠ .endOfFile := by
      simp [runLexeme, Lexeme.toToken]
    obtain ⟨t, hlead, hc, hh⟩ := leads_past_text ctx h hr hts rfl
    obtain ⟨ht', heq⟩ := hlead ht
    rw [heq, balance_append_of_isPlain hrun]
    exact ih _ _ t braces environments ht' (hc ▸ hp.advance hr hts hk)
      (by rw [hc, Cursor.remaining_advance hr hts hk]) hh

theorem answers_outcomeOf (settings : Settings) (pieces : List Piece) :
    Answers ((spell pieces).tokens settings.keepComments) (Parse.outcomeOf settings (spell pieces))
      (balance [] 0 pieces) := by
  have htokens := Text.tokens_eq_tokensFrom (spell pieces) settings.keepComments
  have hne := Text.tokensFrom_ne_nil settings.keepComments .normal {} 0 (spell pieces)
  have hr : (State.initial settings (spell pieces)).cursor.remaining
      = Text.tokensFrom settings.keepComments .normal {} 0 (spell pieces) := by
    rw [State.initial, Text.cursor, htokens, Cursor.remaining_ofTokens hne]
  have hp : Placed ((spell pieces).tokens settings.keepComments)
      (State.initial settings (spell pieces)).cursor := by
    refine ⟨?_, rfl⟩
    rw [hr, htokens]
    rfl
  exact answers_run pieces {} 0 _ [] [] _ hp hr (.of_inline?_none rfl .nil)

/-- A document of pieces is read when its markers fit together, and else fails with the flaw that
the stack has, at the token that the stack blames. -/
theorem parse_balance (pieces : List Piece) {options : Options} {settings : Settings}
    (h : options.resolve = .ok settings) :
    match balance [] 0 pieces with
    | .ok _ => ∃ parsed, parseDocument (spell pieces) options = .ok parsed
    | .error (flaw, offset) =>
      ∃ index t, parseDocument (spell pieces) options
          = .error (.structural
            ⟨flaw, offset, index, (LineTable.ofText (spell pieces)).position offset⟩) ∧
        ((spell pieces).tokens settings.keepComments)[index]? = some t ∧ t.start = offset := by
  have hanswers := answers_outcomeOf settings pieces
  have hparse : parseDocument (spell pieces) options
      = (Document.parse settings (spell pieces)).mapError .structural := by
    rw [parseDocument, withSettings, h]
  rw [Document.parse_eq] at hparse
  cases hb : balance [] 0 pieces with
  | ok _ =>
    rw [hb] at hanswers
    cases ho : Parse.outcomeOf settings (spell pieces) with
    | ok result =>
      rw [ho] at hparse
      exact ⟨_, hparse⟩
    | error f => rw [ho] at hanswers; exact hanswers.elim
  | error complaint =>
    obtain ⟨flaw, offset⟩ := complaint
    rw [hb] at hanswers
    cases ho : Parse.outcomeOf settings (spell pieces) with
    | ok result => rw [ho] at hanswers; exact hanswers.elim
    | error f =>
      rw [ho] at hanswers hparse
      obtain ⟨rfl, rfl, hlisted⟩ := hanswers
      exact ⟨f.marker.index, f.marker.token, hparse, hlisted, rfl⟩

/-- A quote that a group is left open in. -/
theorem parse_balance_group_in_quote :
    let pieces : List Piece := [.begins .quote, .lineFeed, .openBrace, .ends .quote]
    balance [] 0 pieces = .error (.unclosedGroup "\x7b", 14) ∧
      ∃ index t, parseDocument (spell pieces) {}
          = .error (.structural ⟨.unclosedGroup "\x7b", 14, index,
            (LineTable.ofText (spell pieces)).position 14⟩) ∧
        ((spell pieces).tokens false)[index]? = some t ∧ t.start = 14 := by
  refine ⟨by rfl, ?_⟩
  have hresolve : ({} : Options).resolve = .ok {} := rfl
  exact parse_balance [.begins .quote, .lineFeed, .openBrace, .ends .quote] hresolve

end LatexMarkdown.Nesting
