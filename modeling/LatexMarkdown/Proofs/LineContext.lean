import LatexMarkdown.Proofs.Restarting
import LatexMarkdown.Proofs.Spelling
/-!
  What the line marks of a token say about the text.

  The scanner does not look back at the line of a token.  It keeps one bit, cleared by every line
  break token and set by every other token that is not blank text.  `LineMark.Tells` says what
  the bit stands for: nothing but spacing lies between the place and the last line break token.
  That is not the line of the text: ties and escaped spaces count as space, and lines that begin
  inside a raw body are not noticed.  Main statement: `Text.lineMarks_of_tokens`, which says so
  exactly.
-/
namespace LatexMarkdown

namespace Text

/-! ## Spacing -/

/-- Nothing but what reads as space: source space, ties, and escaped spaces and tabs. -/
def readsBlank : Text → Bool
  | [] => true
  | [u] => u == 0x7E || u.isSourceSpace
  | u :: v :: rest =>
    if u = 0x5C then v.isTabSpace && readsBlank rest
    else (u == 0x7E || u.isSourceSpace) && readsBlank (v :: rest)

@[simp] theorem readsBlank_nil : readsBlank [] = true := rfl

theorem readsBlank_cons {u : CodeUnit} (h : u ≠ 0x5C) (t : Text) :
    readsBlank (u :: t) = ((u == 0x7E || u.isSourceSpace) && readsBlank t) := by
  cases t with
  | nil => simp [readsBlank]
  | cons v rest => rw [readsBlank, if_neg h]

@[simp] theorem readsBlank_tie (t : Text) : readsBlank (0x7E :: t) = readsBlank t := by
  rw [readsBlank_cons (by decide)]
  rfl

@[simp] theorem readsBlank_escape (u : CodeUnit) (t : Text) :
    readsBlank (0x5C :: u :: t) = (u.isTabSpace && readsBlank t) := by
  rw [readsBlank, if_pos rfl]

/-- A unit that is neither space nor begins what reads as space. -/
theorem readsBlank_cons_eq_false {u : CodeUnit} (hslash : u ≠ 0x5C)
    (h : (u == 0x7E || u.isSourceSpace) = false) (t : Text) : readsBlank (u :: t) = false := by
  rw [readsBlank_cons hslash, h, Bool.false_and]

/-- A backslash that escapes no space. -/
theorem readsBlank_escape_eq_false {u : CodeUnit} (h : u.isTabSpace = false) (t : Text) :
    readsBlank (0x5C :: u :: t) = false := by
  rw [readsBlank_escape, h, Bool.false_and]

/-- Without ties and backslashes only space is spacing. -/
theorem readsBlank_append {span : Text} (htie : 0x7E ∉ span) (hslash : 0x5C ∉ span) (t : Text) :
    readsBlank (span ++ t) = (span.isBlank && readsBlank t) := by
  induction span with
  | nil => rfl
  | cons u span ih =>
    have hrest := ih (fun h => htie (List.mem_cons_of_mem u h))
      (fun h => hslash (List.mem_cons_of_mem u h))
    have hu : u ≠ 0x5C := fun h => hslash (h ▸ List.mem_cons_self)
    have hu' : (u == 0x7E) = false := beq_false_of_ne fun h => htie (h ▸ List.mem_cons_self)
    rw [List.cons_append, readsBlank_cons hu, hrest, hu', Bool.false_or, isBlank_cons,
      Bool.and_assoc]

theorem readsBlank_eq_isBlank {t : Text} (htie : 0x7E ∉ t) (hslash : 0x5C ∉ t) :
    readsBlank t = t.isBlank := by
  have h := readsBlank_append htie hslash []
  rwa [List.append_nil, readsBlank_nil, Bool.and_true] at h

/-- No delimiter is spacing. -/
theorem readsBlank_delimiter {kind : TokenKind} {span : Text} (h : span ∈ kind.delimiters)
    (t : Text) : readsBlank (span ++ t) = false := by
  cases kind
  case mathInline | mathDisplay =>
    simp only [TokenKind.delimiters, List.mem_cons, List.not_mem_nil, or_false] at h
    rcases h with rfl | rfl | rfl
    · exact readsBlank_cons_eq_false (by decide) (by decide) _
    · exact readsBlank_escape_eq_false (by decide) _
    · exact readsBlank_escape_eq_false (by decide) _
  case groupOpen | groupClose | bracketOpen | bracketClose | alignmentTab =>
    cases List.mem_singleton.mp h
    exact readsBlank_cons_eq_false (by decide) (by decide) _
  case lineBreak =>
    cases List.mem_singleton.mp h
    exact readsBlank_escape_eq_false (by decide) _
  all_goals cases h

end Text

namespace CodeUnit

/-- Classes that leave out space and tab have neither among their units. -/
theorem isTabSpace_eq_false {p : CodeUnit → Bool} {u : CodeUnit} (h : p u = true)
    (hspace : p 0x20 = false := by decide) (htab : p 0x09 = false := by decide) :
    u.isTabSpace = false := by
  rw [← Bool.not_eq_true]
  intro hu
  simp only [isTabSpace, Bool.or_eq_true, beq_iff_eq] at hu
  rcases hu with rfl | rfl
  · rw [hspace] at h
    cases h
  · rw [htab] at h
    cases h

end CodeUnit

/-! ## Tokens of markup -/

namespace Token

open Text

variable {t : Token} {span after front : Text}

theorem SpellsText.readsBlank_append (h : t.SpellsText span after) :
    readsBlank (span ++ front) = (t.text.isBlank && readsBlank front) := by
  obtain ⟨rfl, htext⟩ | ⟨htext, -, hplain, -⟩ := h
  · rw [htext]
    exact readsBlank_tie front
  · have htie : (0x7E : CodeUnit) ∉ span := fun hmem => hplain _ hmem (by decide)
    have hslash : (0x5C : CodeUnit) ∉ span := fun hmem => hplain _ hmem (by decide)
    rw [htext]
    exact Text.readsBlank_append htie hslash front

theorem SpellsEscape.readsBlank_append (h : t.SpellsEscape span) :
    readsBlank (span ++ front) = (t.text.isBlank && readsBlank front) := by
  obtain ⟨c, rfl, ⟨hc, htext⟩ | ⟨hc, htext⟩⟩ := h
  · have hescapable : c.isTabSpace = false ∧ c.isSourceSpace = false :=
      (by decide : ∀ c ∈ CodeUnit.escapable, c.isTabSpace = false ∧ c.isSourceSpace = false) c hc
    rw [htext, isBlank_cons, hescapable.2]
    exact readsBlank_escape_eq_false hescapable.1 front
  · have htab : c.isTabSpace = true := by rcases hc with rfl | rfl <;> rfl
    have hescape := readsBlank_escape c front
    rw [htab] at hescape
    rw [htext]
    exact hescape

/-- The escape that names nothing is no space: behind a backslash alone its line ends. -/
theorem SpellsMalformed.readsBlank_append (h : t.SpellsMalformed span after)
    (hfront : front <+: after) :
    readsBlank (span ++ front) = (t.text.isBlank && readsBlank front) := by
  obtain ⟨htext, ⟨rfl, hstops⟩ | ⟨c, rfl, -, -, hc⟩⟩ := h
  · rw [htext]
    cases front with
    | nil => rfl
    | cons v front =>
      obtain ⟨tail, rfl⟩ := hfront
      have hbreak : v.isLineBreak = true := hstops v rfl
      exact readsBlank_escape_eq_false (CodeUnit.isTabSpace_eq_false hbreak) front
  · have htab : c.isTabSpace = false := by
      rw [← Bool.not_eq_true]
      intro hu
      simp only [CodeUnit.isTabSpace, Bool.or_eq_true, beq_iff_eq] at hu
      exact hc (by rcases hu with rfl | rfl <;> decide)
    rw [htext]
    exact readsBlank_escape_eq_false htab front

theorem SpellsCommand.readsBlank_append (h : t.SpellsCommand span after) :
    readsBlank (span ++ front) = false := by
  obtain ⟨letters, hne, hletters, hname⟩ := h.name
  obtain ⟨u, more, rfl⟩ := List.exists_cons_of_ne_nil hne
  obtain ⟨tail, htext⟩ : ∃ tail, t.text = u :: tail := by
    rcases hname with hname | ⟨hname, -⟩
    · exact ⟨_, hname⟩
    · exact ⟨_, hname⟩
  have hletter : u.isLetter = true := hletters u List.mem_cons_self
  rw [h.span_eq, htext]
  exact readsBlank_escape_eq_false (CodeUnit.isTabSpace_eq_false hletter) _

theorem SpellsMarker.readsBlank_append {command : Text} (h : t.SpellsMarker span command)
    (hcommand : ∀ u ∈ command, CodeUnit.isLetter u = true) (hne : command ≠ []) :
    readsBlank (span ++ front) = false := by
  obtain ⟨space, hspan, -⟩ := h.span_eq
  obtain ⟨u, command, rfl⟩ := List.exists_cons_of_ne_nil hne
  rw [hspan]
  exact readsBlank_escape_eq_false (CodeUnit.isTabSpace_eq_false (hcommand u List.mem_cons_self)) _

/-- Whether a token of markup is blank text can be seen from its units, with what stands behind
them: they read as space just then. -/
theorem Spells.readsBlank_append {previous : Option Token} (h : t.Spells span after previous)
    (hline : t.kind ≠ .newLine) (hraw : t.kind ≠ .rawText) (hend : t.kind ≠ .endOfFile)
    (hfront : front <+: after) :
    readsBlank (span ++ front) = (t.isBlankText && readsBlank front) := by
  have hmarkup : t.kind ≠ .text → t.isBlankText = false := fun hk => by simp [isBlankText, hk]
  unfold Spells at h
  cases hk : t.kind
  case text =>
    have hblank : t.isBlankText = t.text.isBlank := by rw [isBlankText, hk]; rfl
    simp only [hk] at h
    rw [hblank]
    split at h
    · exact h.readsBlank_append
    · exact h.readsBlank_append
    · exact h.readsBlank_append hfront
    · exact h.elim
  case endOfFile => exact absurd hk hend
  case newLine => exact absurd hk hline
  case rawText => exact absurd hk hraw
  all_goals
    rw [hmarkup (by simp [hk])]
    simp only [hk] at h
  case command => exact h.readsBlank_append
  case envBegin => exact h.readsBlank_append (by decide) (by decide)
  case envEnd => exact h.readsBlank_append (by decide) (by decide)
  case comment =>
    rw [h.span_eq]
    exact readsBlank_cons_eq_false (by decide) (by decide) _
  all_goals exact readsBlank_delimiter h.2.1 front

end Token

/-! ## What the bit stands for -/

/-- A line that begins in a span, or right behind it, does so behind a line break in the span. -/
theorem Text.exists_isLineBreak_of_isLineStart (source : Text) {offset length n : Nat}
    (hn : source.IsLineStart n) (hlt : offset < n) (hle : n ≤ offset + length) :
    ∃ u ∈ (source.drop offset).take length, CodeUnit.isLineBreak u = true := by
  obtain ⟨i, rfl⟩ : ∃ i, n = offset + i + 1 := ⟨n - offset - 1, by omega⟩
  have hunit : ∃ u, source[offset + i]? = some u ∧ u.isLineBreak = true := by
    rcases Text.isLineStart_succ.mp hn with hu | ⟨hu, -⟩
    · exact ⟨_, hu, rfl⟩
    · exact ⟨_, hu, rfl⟩
  obtain ⟨u, hu, hbreak⟩ := hunit
  refine ⟨u, ?_, hbreak⟩
  rw [← List.getElem?_drop] at hu
  obtain ⟨hi, hget⟩ := List.getElem?_eq_some_iff.mp hu
  exact List.mem_take_iff_getElem.mpr ⟨i, by omega, hget⟩

/-- What a scanner knows of the line before an offset, in terms of the text.  It takes the line to
begin at `start`: what stands from there on is read as space just when no content was seen.  A line
may begin behind `start` all the same, inside or at the end of a raw text, which is content. -/
structure LineMark.Tells (m : LineMark) (source : Text) (before : List Token) (offset start : Nat) :
    Prop where
  isLineStart : source.IsLineStart start
  le : start ≤ offset
  stop_le : ∀ r ∈ before, r.stop ≤ offset
  readsBlank : ∀ front, front <+: source.drop offset →
    Text.readsBlank (source.slice start offset ++ front) = (!m.hasContent && Text.readsBlank front)
  raw : ∀ n, source.IsLineStart n → start < n → n ≤ offset →
    m.hasContent = true ∧ ∃ r ∈ before, r.kind = .rawText ∧ r.start < n ∧ n ≤ r.stop
  apart : ∀ r ∈ before, r.kind = .rawText → r.stop < start ∨ start ≤ r.start

namespace LineMark.Tells

variable {m : LineMark} {source : Text} {before : List Token} {offset start : Nat} {x : Lexeme}

/-- Nothing is known at the front of a text. -/
theorem front (source : Text) : Tells {} source [] 0 0 where
  isLineStart := source.isLineStart_zero
  le := Nat.le_refl 0
  stop_le := by simp
  readsBlank front _ := by rw [Text.slice_self]; rfl
  raw n _ hlt hle := absurd hlt (Nat.not_lt_of_le hle)
  apart := by simp

theorem stop_le_concat (h : m.Tells source before offset start) (x : Lexeme) :
    ∀ r ∈ before ++ [x.toToken m offset], r.stop ≤ offset + x.length := by
  intro r hr
  rcases List.mem_append.mp hr with hr | hr
  · exact Nat.le_trans (h.stop_le r hr) (Nat.le_add_right _ _)
  · rw [List.mem_singleton.mp hr]
    exact Nat.le_refl _

/-- Behind a line break a new line is known. -/
theorem newLine (h : m.Tells source before offset start) (hk : x.kind = .newLine)
    (hline : source.IsLineStart (offset + x.length)) (hpos : 0 < x.length) :
    (m.after x).Tells source (before ++ [x.toToken m offset]) (offset + x.length)
      (offset + x.length) where
  isLineStart := hline
  le := Nat.le_refl _
  stop_le := h.stop_le_concat x
  readsBlank front _ := by rw [Text.slice_self, after_lineBreak hk]; rfl
  raw n _ hlt hle := absurd hlt (Nat.not_lt_of_le hle)
  apart := by
    intro r hr hraw
    rcases List.mem_append.mp hr with hr | hr
    · have hle := h.stop_le r hr
      exact .inl (by omega)
    · -- The line break itself is no raw text.
      rw [List.mem_singleton.mp hr] at hraw
      cases hk.symm.trans hraw

/-- Behind any other token the line is the same, and the token is content unless it is blank text.
-/
theorem onLine (h : m.Tells source before offset start) (hk : x.kind ≠ .newLine)
    (hfits : x.Fits (source.drop offset))
    (hspan : ∀ front, front <+: source.drop (offset + x.length) →
      (!m.hasContent && Text.readsBlank (source.slice offset (offset + x.length) ++ front))
        = (!m.hasContent && ((x.kind == .text && x.text.isBlank) && Text.readsBlank front))) :
    (m.after x).Tells source (before ++ [x.toToken m offset]) (offset + x.length) start where
  isLineStart := h.isLineStart
  le := Nat.le_trans h.le (Nat.le_add_right _ _)
  stop_le := h.stop_le_concat x
  readsBlank front hfront := by
    have hsplit := Text.slice_append_drop (t := source) (Nat.le_add_right offset x.length)
    have hprefix : source.slice offset (offset + x.length) ++ front <+: source.drop offset := by
      rw [← hsplit]
      exact (List.prefix_append_right_inj _).mpr hfront
    have hcontent : (m.after x).hasContent
        = (m.hasContent || !(x.kind == .text && x.text.isBlank)) := by
      simp [after, hk]
    rw [← Text.slice_append_slice h.le (Nat.le_add_right offset x.length), List.append_assoc,
      h.readsBlank _ hprefix, hspan front hfront, hcontent, Bool.not_or, Bool.not_not]
    exact (Bool.and_assoc _ _ _).symm
  raw n hn hlt hle := by
    by_cases hold : n ≤ offset
    · obtain ⟨hcontent, r, hr, hraw⟩ := h.raw n hn hlt hold
      exact ⟨by simp [after, hk, hcontent], r, List.mem_append_left _ hr, hraw⟩
    · -- The line begins in the token, so the token is raw text.
      have hbreak := source.exists_isLineBreak_of_isLineStart hn (Nat.lt_of_not_le hold) hle
      have hraw : x.kind = .rawText := by
        by_contra hraw
        obtain ⟨u, hu, hbreak⟩ := hbreak
        rw [hfits.unbroken hk hraw u hu] at hbreak
        cases hbreak
      refine ⟨by simp [after, hraw], x.toToken m offset, by simp, hraw, ?_, hle⟩
      exact Nat.lt_of_not_le hold
  apart := by
    intro r hr hraw
    rcases List.mem_append.mp hr with hr | hr
    · exact h.apart r hr hraw
    · rw [List.mem_singleton.mp hr]
      exact .inr h.le

end LineMark.Tells

/-! ## Tokens -/

/-- Behind a token that changes the mode of reading there is content on the line. -/
theorem Lexeme.kind_ne_of_mode {mode : Mode} {u : CodeUnit} {rest : Text}
    (h : (read mode u rest).mode ≠ .normal) :
    (read mode u rest).kind ≠ .newLine ∧ (read mode u rest).kind ≠ .text := by
  cases hmode : (read mode u rest).mode with
  | normal => exact absurd hmode h
  | rawText name => rw [(begins_of_mode hmode).1]; decide
  | verbatim d => rw [(verb_of_mode hmode).1]; decide

namespace Text

variable {source : Text}

/-- The marks of every token of a list are what is known of its line. -/
def Marked (source : Text) : List Token → List Token → Prop
  | _, [] => True
  | before, t :: rest =>
    (∃ m start, LineMark.Tells m source before t.start start ∧
      t.flags.atLineStart = !m.hasContent ∧
      t.flags.blankLine = (t.kind == .newLine && !m.hasContent)) ∧
      Marked source (before ++ [t]) rest

theorem Marked.of_append {before front rest : List Token}
    (h : Marked source before (front ++ rest)) : Marked source (before ++ front) rest := by
  induction front generalizing before with
  | nil => rwa [List.append_nil]
  | cons t front ih =>
    have hrest := ih h.2
    rwa [List.append_assoc] at hrest

/-- What is known of the line behind a lexeme. -/
theorem tells_read {mode : Mode} {m : LineMark} {before : List Token} {offset start : Nat}
    {u : CodeUnit} {rest : Text} (h : m.Tells source before offset start)
    (hagrees : mode.Agrees (u :: rest)) (hmode : mode ≠ .normal → m.hasContent = true)
    (hdrop : source.drop offset = u :: rest) :
    ∃ start', (m.after (Lexeme.read mode u rest)).Tells source
      (before ++ [(Lexeme.read mode u rest).toToken m offset])
      (offset + (Lexeme.read mode u rest).length) start' := by
  have hfits := Lexeme.fits_read hagrees
  by_cases hk : (Lexeme.read mode u rest).kind = .newLine
  · obtain ⟨hbreak, hlength, -⟩ := Lexeme.of_kind_newLine hk
    refine ⟨_, h.newLine hk ?_ (Lexeme.length_read_pos mode u rest)⟩
    rw [hlength]
    exact isLineStart_breakLength hdrop hbreak
  · refine ⟨start, h.onLine hk (hdrop ▸ hfits) fun front hfront => ?_⟩
    cases hm : m.hasContent with
    | true => rfl
    | false =>
      -- Without content on the line markup is read, and that is spelled as its kind.
      obtain rfl : mode = .normal := by
        by_contra hne
        rw [hmode hne] at hm
        cases hm
      obtain ⟨span, after, hsplit, hlength, hspells⟩ := Lexeme.hasSpelling_ofMarkup u rest
      have hslice : source.slice offset (offset + (Lexeme.ofMarkup u rest).length) = span := by
        rw [slice, hdrop, Nat.add_sub_cancel_left, hsplit, hlength, List.take_append_length]
      have hafter : source.drop (offset + (Lexeme.ofMarkup u rest).length) = after := by
        rw [← List.drop_drop, hdrop, hsplit, hlength, List.drop_append_length]
      rw [Lexeme.read, hafter] at hfront
      rw [Lexeme.read, hslice, (hspells m offset none).readsBlank_append hk
        (Lexeme.kind_ofMarkup_ne_rawText u rest) (Lexeme.kind_ofMarkup_ne_endOfFile u rest) hfront]
      rfl

theorem marked_tokensFrom {t : Text} {mode : Mode} {m : LineMark} {offset : Nat}
    (hagrees : mode.Agrees t) (hmode : mode ≠ .normal → m.hasContent = true)
    (hdrop : source.drop offset = t) :
    ∀ before start, m.Tells source before offset start →
      Marked source before (t.tokensFrom true mode m offset) := by
  fun_induction Text.tokensFrom true mode m offset t with
  | case1 mode m offset => exact fun before start h => ⟨⟨m, start, h, rfl, rfl⟩, trivial⟩
  | case2 mode m offset u rest x hc n ih => exact absurd hc.2 (by decide)
  | case3 mode m offset u rest x hc ih =>
    intro before start h
    have hfits : x.Fits (u :: rest) := Lexeme.fits_read hagrees
    obtain ⟨start', h'⟩ := tells_read h hagrees hmode hdrop
    refine ⟨⟨m, start, h, rfl, rfl⟩, ih hfits.agrees (fun hx => ?_)
      (by rw [← hdrop, List.drop_drop]) _ start' h'⟩
    obtain ⟨hline, htext⟩ := Lexeme.kind_ne_of_mode hx
    have hline : x.kind ≠ .newLine := hline
    have htext : x.kind ≠ .text := htext
    simp [LineMark.after, hline, htext]

/-! ## The marks -/

/-- The line of an offset begins at `start`. -/
structure IsLineOf (source : Text) (offset start : Nat) : Prop where
  isLineStart : source.IsLineStart start
  le : start ≤ offset
  last : ∀ n, start < n → n ≤ offset → ¬ source.IsLineStart n

/-- One of the tokens is raw text that goes over the place or up to it. -/
def RawInto (tokens : List Token) (place : Nat) : Prop :=
  ∃ r ∈ tokens, r.kind = .rawText ∧ r.start < place ∧ place ≤ r.stop

/-- With comments kept, a token is marked as the first on its line just when what stands before it
on the line reads as space, ties and escaped spaces included, and no raw text reaches into the line;
and a line break is marked as ending a blank line just when it is marked as the first on its line.
So where no raw text reaches into the line and neither a tie nor a backslash stands before the
token, the mark says that nothing but white space does. -/
theorem lineMarks_of_tokens {before after : List Token} {t : Token} {start : Nat}
    (h : source.tokens true = before ++ t :: after) (hline : source.IsLineOf t.start start) :
    (t.flags.atLineStart = true ↔
      readsBlank (source.slice start t.start) = true ∧ ¬ RawInto before start) ∧
    (t.flags.blankLine = true ↔ t.kind = .newLine ∧ t.flags.atLineStart = true) ∧
    (0x7E ∉ source.slice start t.start → 0x5C ∉ source.slice start t.start →
      ¬ RawInto before start →
      (t.flags.atLineStart = true ↔ isBlank (source.slice start t.start) = true)) := by
  have hagrees : Mode.normal.Agrees source := trivial
  have hmarked : Marked source [] (before ++ t :: after) := by
    rw [← h, tokens_eq_tokensFrom]
    exact marked_tokensFrom hagrees (absurd rfl) rfl [] 0 (LineMark.Tells.front source)
  obtain ⟨⟨m, known, htells, hstart, hblank⟩, -⟩ := hmarked.of_append
  rw [List.nil_append] at htells
  have hle : known ≤ start := by
    by_contra hlt
    exact hline.last known (by omega) htells.le htells.isLineStart
  have hmark : t.flags.atLineStart = true ↔
      readsBlank (source.slice start t.start) = true ∧ ¬ RawInto before start := by
    rcases Nat.lt_or_eq_of_le hle with hlt | rfl
    · -- The line begins inside raw text, and that is content.
      obtain ⟨hcontent, hraw⟩ := htells.raw start hline.isLineStart hlt hline.le
      simp only [hstart, hcontent, Bool.not_true, Bool.false_eq_true, false_iff, not_and, not_not]
      exact fun _ => hraw
    · have hnone : ¬ RawInto before known := by
        rintro ⟨r, hr, hk, hlt, hstop⟩
        have := htells.apart r hr hk
        omega
      have hreads := htells.readsBlank [] (List.nil_prefix)
      rw [List.append_nil, readsBlank_nil, Bool.and_true] at hreads
      rw [hstart, hreads]
      exact ⟨fun hm => ⟨hm, hnone⟩, And.left⟩
  refine ⟨hmark, ?_, fun htie hslash hraw => ?_⟩
  · rw [hblank, hstart, Bool.and_eq_true, beq_iff_eq]
  · rw [hmark, readsBlank_eq_isBlank htie hslash]
    exact and_iff_left hraw

/-- Behind a tie and an escaped space a word is marked as the first on its line. -/
theorem lineMarks_of_tokens_sample :
    let source : Text := "a\n ~\\ b"
    let before : List Token := (source.tokens true).take 5
    let t : Token :=
      { kind := .text, flags := { atLineStart := true }, start := 6, stop := 7, text := "b" }
    source.tokens true = before ++ t :: (source.tokens true).drop 6 ∧ source.IsLineOf t.start 2 ∧
      (t.flags.atLineStart = true ↔
        readsBlank (source.slice 2 t.start) = true ∧ ¬ RawInto before 2) ∧
      (t.flags.blankLine = true ↔ t.kind = .newLine ∧ t.flags.atLineStart = true) ∧
      (0x7E ∉ source.slice 2 t.start → 0x5C ∉ source.slice 2 t.start → ¬ RawInto before 2 →
        (t.flags.atLineStart = true ↔ isBlank (source.slice 2 t.start) = true)) := by
  intro source before t
  have h : source.tokens true = before ++ t :: (source.tokens true).drop 6 := by decide +kernel
  have hlast : ∀ n ≤ 6, 2 < n → ¬ source.IsLineStart n := by decide +kernel
  have hline : source.IsLineOf t.start 2 :=
    ⟨by decide +kernel, by decide, fun n hlt hle => hlast n hle hlt⟩
  exact ⟨h, hline, lineMarks_of_tokens h hline⟩

/-- An end marker with nothing but space before it on its line, where the line begins in the body
that the marker ends, is not marked as the first on the line. -/
theorem not_forall_lineMarks :
    ¬ ∀ (source : Text) (t : Token) (start : Nat), t ∈ source.tokens true →
      source.IsLineOf t.start start →
      (t.flags.atLineStart = true ↔ isBlank (source.slice start t.start) = true) ∧
      (t.kind = .newLine →
        (t.flags.blankLine = true ↔ isBlank (source.slice start t.start) = true)) := by
  intro h
  let source : Text := "\\begin\x7bverbatim\x7d\nx\n  \\end\x7bverbatim\x7d"
  let t : Token := { kind := .envEnd, start := 21, stop := 35, text := "verbatim" }
  have ht : t ∈ source.tokens true := by decide +kernel
  have hlast : ∀ n ≤ 21, 19 < n → ¬ source.IsLineStart n := by decide +kernel
  have hline : source.IsLineOf t.start 19 :=
    ⟨by decide +kernel, by decide, fun n hlt hle => hlast n hle hlt⟩
  have hblank : isBlank (source.slice 19 t.start) = true := by decide +kernel
  exact absurd ((h source t 19 ht hline).1.mpr hblank) (by decide)

end Text

end LatexMarkdown
