import LatexMarkdown.Proofs.Formatting
import LatexMarkdown.Proofs.Concatenation
import LatexMarkdown.Proofs.Breaks.Content
/-!
  Where forced breaks keep words apart.

  Main statement: `Breaks.convert_spell`.  `Prose` is text of words, forced breaks, groups in braces
  and formatted groups, nested to any depth, and `Prose.settled` says what each formatted group
  leaves of the gaps in it.  The output has gaps between words just where `settled` has them.

  So a forced break keeps words apart when, in every formatted group around it, there are letters on
  both sides of it (`Prose.heldBreaks`).  At the edge of such a group it is dropped, and the words
  beside the group are glued together (`not_forall_forcedBreaks_keepApart`).
-/
namespace LatexMarkdown

namespace Breaks

open Formatting (Command Markup IsProse BeginsParagraph closedParagraph insideBrace
  insideArgumentAt)
open Parse (State Context OpenInline Surround Faces Meets nestingLimit)
open Parse.State (Leads)

/-! ## Sources -/

/-- Letters, digits and spaces. -/
structure Words where
  text : Text
  isWords : IsWords text

/-- No words. -/
def Words.none : Words := ⟨[], by decide⟩

/-- Words, and what stands behind them. -/
inductive Prose
  | done (w : Words)
  | hardBreak (w : Words) (rest : Prose)
  | group (w : Words) (inner rest : Prose)
  | styled (w : Words) (c : Command) (gap : Nat) (inner rest : Prose)

namespace Prose

/-- The source. -/
def spell : Prose → Text
  | done w => w.text
  | hardBreak w rest => w.text ++ 0x5C :: 0x5C :: rest.spell
  | group w inner rest => w.text ++ Markup.brace inner.spell rest.spell
  | styled w c gap inner rest =>
    w.text ++ 0x5C :: (c.name ++ (List.replicate gap 0x20 ++ Markup.brace inner.spell rest.spell))

/-- How deep groups are nested. -/
def depth : Prose → Nat
  | done _ => 0
  | hardBreak _ rest => rest.depth
  | group _ inner rest => max (inner.depth + 1) rest.depth
  | styled _ _ _ inner rest => max (inner.depth + 1) rest.depth

/-- The letters and digits of the words. -/
def erase : Prose → Text
  | done w => w.text.filter CodeUnit.isAlphanumeric
  | hardBreak w rest => w.text.filter CodeUnit.isAlphanumeric ++ rest.erase
  | group w inner rest | styled w _ _ inner rest =>
    w.text.filter CodeUnit.isAlphanumeric ++ (inner.erase ++ rest.erase)

/-- The marks, with what the formatted groups leave of them. -/
def settled : Prose → List Mark
  | done w => marks w.text
  | hardBreak w rest => marks w.text ++ .hardBreak :: rest.settled
  | group w inner rest => marks w.text ++ (inner.settled ++ rest.settled)
  | styled w _ _ inner rest => marks w.text ++ (closed inner.settled ++ rest.settled)

/-- The letters before and behind a place, with more letters around. -/
def widen (before after : Text) (p : Text × Text) : Text × Text := (before ++ p.1, p.2 ++ after)

/-- The letters before and behind each forced break; without `all`, only of those that have letters
on both sides in every formatted group around them. -/
def breaks (all : Bool) : Prose → List (Text × Text)
  | done _ => []
  | hardBreak w rest =>
    (w.text.filter CodeUnit.isAlphanumeric, rest.erase)
      :: (rest.breaks all).map (widen (w.text.filter CodeUnit.isAlphanumeric) [])
  | group w inner rest =>
    (inner.breaks all).map (widen (w.text.filter CodeUnit.isAlphanumeric) rest.erase)
      ++ (rest.breaks all).map (widen (w.text.filter CodeUnit.isAlphanumeric ++ inner.erase) [])
  | styled w _ _ inner rest =>
    ((inner.breaks all).filter fun p => all || !p.1.isEmpty && !p.2.isEmpty).map
        (widen (w.text.filter CodeUnit.isAlphanumeric) rest.erase)
      ++ (rest.breaks all).map (widen (w.text.filter CodeUnit.isAlphanumeric ++ inner.erase) [])

/-- The letters before and behind each forced break. -/
def forcedBreaks (m : Prose) : List (Text × Text) := m.breaks true

/-- Those of the breaks that no formatted group drops. -/
def heldBreaks (m : Prose) : List (Text × Text) := m.breaks false

end Prose

/-! ## Breaks that are held -/

theorem flagged_closed (ms : List Mark) : flagged true (closed ms) = flagged true ms := by
  have hedge (m? : Option Mark) : flagged true (edge m?) = [] ∧ endsInGap true (edge m?) = true := by
    unfold edge
    split <;> exact ⟨rfl, rfl⟩
  unfold closed
  split
  · next hletters =>
    rw [flagged_eq_nil_iff.mpr hletters]
    split <;> rfl
  · rw [List.append_assoc, flagged_append, flagged_append, (hedge ms.head?).1, (hedge ms.head?).2,
      flagged_trimmed]
    have hlast (gap : Bool) : flagged gap (edge ms.getLast?) = [] := by
      unfold edge
      split <;> rfl
    rw [hlast, List.nil_append, List.append_nil]

theorem letters_closed (ms : List Mark) : letters (closed ms) = letters ms := by
  rw [← map_snd_flagged true, flagged_closed, map_snd_flagged]

theorem Prose.letters_settled (m : Prose) : letters m.settled = m.erase := by
  induction m with
  | done w => exact letters_marks _
  | hardBreak w rest ih =>
    rw [settled, erase, letters_append, letters_marks, letters_gap rfl, ih]
  | group w inner rest ihInner ih =>
    rw [settled, erase, letters_append, letters_append, letters_marks, ihInner, ih]
  | styled w c gap inner rest ihInner ih =>
    rw [settled, erase, letters_append, letters_append, letters_marks, letters_closed, ihInner, ih]

/-- Marks around leave apart what is apart. -/
theorem Apart.widen {ms : List Mark} {p : Text × Text} (h : Apart ms p.1 p.2) {before after : Text}
    {front back : List Mark} (hfront : letters front = before) (hback : letters back = after) :
    Apart (front ++ (ms ++ back)) (Prose.widen before after p).1 (Prose.widen before after p).2 := by
  obtain ⟨ms₁, gap, ms₂, rfl, hgap, hl, hr⟩ := h
  refine ⟨front ++ ms₁, gap, ms₂ ++ back, by simp, hgap, ?_, ?_⟩
  · rw [letters_append, hfront, hl, Prose.widen]
  · rw [letters_append, hback, hr, Prose.widen]

/-- Behind other marks, too. -/
theorem Apart.behind {ms : List Mark} {p : Text × Text} (h : Apart ms p.1 p.2) {before : Text}
    {front : List Mark} (hfront : letters front = before) :
    Apart (front ++ ms) (Prose.widen before [] p).1 (Prose.widen before [] p).2 := by
  have hwiden := h.widen hfront letters_nil
  rwa [List.append_nil] at hwiden

/-- A break that is held keeps apart what stands on its two sides. -/
theorem Prose.apart_of_mem_heldBreaks (m : Prose) :
    ∀ p ∈ m.heldBreaks, Apart m.settled p.1 p.2 := by
  induction m with
  | done w => simp [heldBreaks, breaks]
  | hardBreak w rest ih =>
    have hbreak : letters (marks w.text ++ [.hardBreak])
        = w.text.filter CodeUnit.isAlphanumeric := by
      rw [letters_append, letters_marks, letters_gap rfl, letters_nil, List.append_nil]
    intro p hp
    rcases List.mem_cons.mp hp with rfl | hp
    · exact ⟨marks w.text, .hardBreak, rest.settled, rfl, rfl, letters_marks _, rest.letters_settled⟩
    · obtain ⟨q, hq, rfl⟩ := List.mem_map.mp hp
      have happart := (ih q hq).behind hbreak
      rwa [List.append_assoc] at happart
  | group w inner rest ihInner ih =>
    intro p hp
    rcases List.mem_append.mp hp with hp | hp <;> obtain ⟨q, hq, rfl⟩ := List.mem_map.mp hp
    · exact (ihInner q hq).widen (letters_marks _) rest.letters_settled
    · rw [settled, ← List.append_assoc]
      refine (ih q hq).behind ?_
      rw [letters_append, letters_marks, inner.letters_settled]
  | styled w c gap inner rest ihInner ih =>
    intro p hp
    rcases List.mem_append.mp hp with hp | hp <;> obtain ⟨q, hq, rfl⟩ := List.mem_map.mp hp
    · -- With letters on both sides the break is no break at the edge of the group.
      obtain ⟨hq, hsides⟩ := List.mem_filter.mp hq
      simp only [Bool.false_or, Bool.and_eq_true, Bool.not_eq_true', List.isEmpty_eq_false_iff]
        at hsides
      have happart := (apart_congr hsides.1 hsides.2 (flagged_closed inner.settled)).mpr
        (ihInner q hq)
      exact happart.widen (letters_marks _) rest.letters_settled
    · rw [settled, ← List.append_assoc]
      refine (ih q hq).behind ?_
      rw [letters_append, letters_marks, letters_closed, inner.letters_settled]

/-! ## Reading prose -/

variable {ctx : Context} {s : State} {i : OpenInline} {ms more : List Mark} {t rest : Text}

/-- The content is open before the text, and what was gathered in it goes for the marks. -/
structure At (ctx : Context) (s : State) (i : OpenInline) (ms : List Mark) (t : Text) : Prop where
  inline?_eq : s.inline? = some i
  holds : Holds i.run.fragments
  alike : Alike (gathered i.run.fragments) ms
  faces : ∃ m, Faces ctx m s.cursor t

/-- Reading on up to the rest adds the marks. -/
def Adds (ctx : Context) (s : State) (i : OpenInline) (ms more : List Mark) (rest : Text) : Prop :=
  ∃ c f, Leads ctx s (s.gather i c f) ∧
    At ctx (s.gather i c f) (i.withFragments f) (ms ++ more) rest

theorem At.refl (h : At ctx s i ms t) : Adds ctx s i ms [] t := by
  refine ⟨s.cursor, i.run.fragments, ?_, ?_⟩ <;> rw [Formatting.gather_self h.inline?_eq]
  · exact .refl s
  · rw [List.append_nil]
    exact h

theorem Adds.trans (h : Adds ctx s i ms more t) {more' : List Mark}
    (hnext : ∀ c f, At ctx (s.gather i c f) (i.withFragments f) (ms ++ more) t →
      Adds ctx (s.gather i c f) (i.withFragments f) (ms ++ more) more' rest) :
    Adds ctx s i ms (more ++ more') rest := by
  obtain ⟨c, f, hlead, hat⟩ := h
  obtain ⟨c', f', hlead', hat'⟩ := hnext c f hat
  rw [List.append_assoc] at hat'
  exact ⟨c', f', hlead.trans hlead', hat'⟩

/-- Fragments that were added count behind those that were there. -/
theorem At.adds {f : Fragments} {c : Cursor} (h : At ctx s i ms t)
    (hf : Holds f ∧ Alike (gathered f) (gathered i.run.fragments ++ more))
    (hlead : Leads ctx s (s.gather i c f)) (hfaces : ∃ m, Faces ctx m c rest) :
    Adds ctx s i ms more rest :=
  ⟨c, f, hlead, rfl, hf.1, hf.2.trans (h.alike.append (.refl _)), hfaces⟩

theorem isPlain_of_isWordUnit {u : CodeUnit} (h : IsWordUnit u) : u.isPlain = true := by
  unfold CodeUnit.isPlain Category.ofUnit
  split <;> simp_all [IsWordUnit, CodeUnit.isAlphanumeric, CodeUnit.isLetter, CodeUnit.isDigit]

theorem ne_of_isWordUnit {u v : CodeUnit} (h : IsWordUnit u) (hv : ¬ IsWordUnit v) : u ≠ v := by
  rintro rfl
  exact hv h

theorem Words.covers {w : Words} (hne : w.text ≠ [])
    (hrest : ∀ u ∈ rest.head?, CodeUnit.isPlain u = false) :
    Lexeme.Covers { kind := .text, length := w.text.length, text := w.text } .normal w.text rest :=
  Lexeme.covers_run hne (fun u hu => isPlain_of_isWordUnit (w.isWords u hu)) hrest

/-- Words are read as one text. -/
theorem At.words {w : Words} (h : At ctx s i ms (w.text ++ rest))
    (hrest : ∀ u ∈ rest.head?, CodeUnit.isPlain u = false) :
    Adds ctx s i ms (marks w.text) rest := by
  by_cases hne : w.text = []
  · rw [hne] at h ⊢
    exact h.refl
  obtain ⟨m, hfaces⟩ := h.faces
  have ht := hfaces.of_covers w.text (Words.covers hne hrest) (by simp) rfl
  have hlead : Leads ctx s _ := .of_text h.inline?_eq ht.kind ht.malformed
  rw [ht.text] at hlead
  obtain ⟨hholds, hgathered⟩ := h.holds.pushText w.isWords hne s.cursor.current.start
    s.cursor.current.stop
  exact h.adds ⟨hholds, .of_eq hgathered (.refl _)⟩ hlead ⟨_, ht.faces⟩

/-- A forced break is added as one; without brackets nothing belongs to it. -/
theorem At.hardBreak (h : At ctx s i ms (0x5C :: 0x5C :: rest)) (hprose : IsProse i)
    (hbracket : 0x5B ∉ ctx.source.toList) : Adds ctx s i ms [.hardBreak] rest := by
  obtain ⟨m, hfaces⟩ := h.faces
  have ht := hfaces.lineBreak
  have hnot : i.surround.endsAt s.inList s.cursor.current = false := by
    rcases hprose with hs | ⟨opener, hs⟩ <;> simp [hs, Surround.endsAt, ht.kind]
  have hskip : (if s.cursor.advance.current.kind = .bracketOpen
      then Parse.skipOptionalArgument s.cursor.advance else s.cursor.advance) = s.cursor.advance := by
    rw [Parse.skipOptionalArgument, ht.faces.startArgument? hbracket]
    exact ite_self _
  have htake : s.takeToken ctx i = .ok (s.gather i s.cursor.advance (i.run.fragments.push
      (.hardBreak (.span s.cursor.current.start s.cursor.current.stop)))) := by
    simp only [State.takeToken, Cursor.marker, ht.kind, State.takeLineBreak, hskip]
  obtain ⟨hholds, hgathered⟩ := h.holds.push (.hardBreak (.span s.cursor.current.start
    s.cursor.current.stop)) rfl
  exact h.adds ⟨hholds, .of_eq hgathered (.refl _)⟩ (.of_takeToken h.inline?_eq hnot htake)
    ⟨_, ht.faces⟩

/-- In prose and behind any marks, the source is read for what is settled of it. -/
def Reads (ctx : Context) (m : Prose) : Prop :=
  ∀ s i ms rest, IsProse i → s.depth + m.depth ≤ nestingLimit →
    (∀ u ∈ rest.head?, CodeUnit.isPlain u = false) → At ctx s i ms (m.spell ++ rest) →
    Adds ctx s i ms m.settled rest

theorem head?_closeBrace (rest : Text) :
    ∀ u ∈ (0x7D :: rest : Text).head?, CodeUnit.isPlain u = false :=
  Lexeme.forall_mem_head?_cons (by decide) rest

/-- A group in braces adds what stands in it. -/
theorem At.group {inner : Prose} (h : At ctx s i ms (Markup.brace inner.spell rest))
    (hinner : Reads ctx inner) (hprose : IsProse i)
    (hd : s.depth + (inner.depth + 1) ≤ nestingLimit) : Adds ctx s i ms inner.settled rest := by
  obtain ⟨m, hfaces⟩ := h.faces
  have hbrace := hfaces.single .groupOpen rfl
  have hopen := Formatting.leads_openBrace ctx h.inline?_eq hprose (by omega) hbrace.kind
  have hdepth := Formatting.depth_insideBrace h.inline?_eq s.cursor.advance
  obtain ⟨c, f, hread, hat⟩ := hinner
    { s with cursor := s.cursor.advance, inline? := some (insideBrace s i) } (insideBrace s i) ms
    (0x7D :: rest) (.inr ⟨_, rfl⟩) (by omega) (head?_closeBrace rest)
    ⟨rfl, h.holds, h.alike, _, hbrace.faces⟩
  obtain ⟨_, hfaces'⟩ := hat.faces
  have hclosing := hfaces'.single .groupClose rfl
  exact ⟨c.advance, f, hopen.trans (hread.trans (Formatting.leads_closeBrace hclosing.kind f)),
    rfl, hat.holds, hat.alike, _, hclosing.faces⟩

/-- The argument of a command begins behind any space. -/
theorem exists_startGroup {m : LineMark} {c : Cursor} (gap : Nat)
    (h : Faces ctx m c (List.replicate gap 0x20 ++ 0x7B :: rest)) :
    ∃ opened m', (∀ owner flaw, Parse.startGroup owner flaw c = .ok opened) ∧
      Faces ctx m' opened (0x7B :: rest) := by
  cases gap with
  | zero =>
    have hfaces : Faces ctx m c (0x7B :: rest) := h
    have hbrace := hfaces.single .groupOpen rfl
    exact ⟨c, m, Parse.startGroup_of_groupOpen hbrace.kind, h⟩
  | succ gap =>
    have hplain : ∀ u ∈ List.replicate (gap + 1) (0x20 : CodeUnit), u.isPlain = true := by
      intro u hu
      rw [List.eq_of_mem_replicate hu]
      decide
    have ht := h.run (by simp) hplain (Lexeme.forall_mem_head?_cons (by decide) rest)
    have hspacing : c.current.isArgumentSpacing = true := by
      have hblank : Text.isBlank (List.replicate (gap + 1) 0x20) = true := by
        rw [Text.isBlank, List.all_replicate, if_neg (by simp)]
        decide
      simp [Token.isArgumentSpacing, Token.isBlankText, ht.kind, ht.text, hblank]
    have hbrace := ht.faces.single .groupOpen rfl
    refine ⟨c.advance, _, fun owner flaw => ?_, ht.faces⟩
    have hadvance := Parse.startArgument?_advance .groupOpen ht.ahead hspacing
    rw [Parse.startGroup, hadvance]
    exact Parse.startGroup_of_groupOpen hbrace.kind owner flaw

theorem head?_gap (gap : Nat) (inner rest : Text) :
    ∀ u ∈ (List.replicate gap 0x20 ++ Markup.brace inner rest).head?,
      CodeUnit.isLetter u = false ∧ u ≠ 0x2A := by
  cases gap with
  | zero => exact Formatting.head?_brace inner rest
  | succ gap => exact Lexeme.forall_mem_head?_cons (by decide) _

/-- A formatted group adds what it leaves of what stands in it. -/
theorem At.styled {inner : Prose} {c : Command} {gap : Nat}
    (h : At ctx s i ms
      (0x5C :: (c.name ++ (List.replicate gap 0x20 ++ Markup.brace inner.spell rest))))
    (hinner : Reads ctx inner) (hprose : IsProse i)
    (hd : s.depth + (inner.depth + 1) ≤ nestingLimit) :
    Adds ctx s i ms (closed inner.settled) rest := by
  obtain ⟨-, -, style, hstyle⟩ := c.lookup
  obtain ⟨m, hfaces⟩ := h.faces
  have hcommand := Formatting.meets_command c hfaces (head?_gap gap _ _)
  obtain ⟨opened, m', hstart, hopened⟩ := exists_startGroup gap hcommand.faces
  have hbrace := hopened.single .groupOpen rfl
  have hopen := Formatting.leads_openArgument ctx h.inline?_eq hstyle hprose (by omega)
    hcommand.kind hcommand.text hstart
  have hdepth := Formatting.depth_insideArgumentAt h.inline?_eq style opened.marker opened.advance
  obtain ⟨c', f, hread, hat⟩ := hinner
    { s with cursor := opened.advance, inline? := some (insideArgumentAt s i style opened.marker) }
    (insideArgumentAt s i style opened.marker) [] (0x7D :: rest) (.inr ⟨_, rfl⟩) (by omega)
    (head?_closeBrace rest) ⟨rfl, holds_empty, .refl _, _, hbrace.faces⟩
  obtain ⟨_, hfaces'⟩ := hat.faces
  have hclosing := hfaces'.single .groupClose rfl
  have hclose := Formatting.leads_closeArgument ctx (s := s) (i := i) hclosing.kind style
    opened.marker f
  obtain ⟨hholds, halike⟩ := closeArgument_alike s.cursor.marker style hat.holds h.holds
    c'.current.stop
  exact h.adds ⟨hholds, halike.trans ((Alike.refl _).append (closed_congr hat.alike))⟩
    (hopen.trans (hread.trans hclose)) ⟨_, hclosing.faces⟩

theorem reads (hbracket : 0x5B ∉ ctx.source.toList) (m : Prose) : Reads ctx m := by
  induction m with
  | done w => exact fun s i ms rest _ _ hrest h => h.words hrest
  | hardBreak w m ih =>
    intro s i ms rest hprose hd hrest h
    rw [Prose.spell, List.append_assoc] at h
    refine (h.words (Lexeme.forall_mem_head?_cons (by decide) _)).trans fun c f h' => ?_
    refine (h'.hardBreak hprose hbracket).trans fun c' f' h'' => ?_
    refine ih _ _ _ rest hprose ?_ hrest h''
    rwa [Formatting.depth_gather h'.inline?_eq, Formatting.depth_gather h.inline?_eq]
  | group w inner m ihInner ih =>
    intro s i ms rest hprose hd hrest h
    rw [Prose.spell, List.append_assoc, Markup.brace_append] at h
    rw [Prose.depth] at hd
    refine (h.words (Lexeme.forall_mem_head?_cons (by decide) _)).trans fun c f h' => ?_
    have hdepth := Formatting.depth_gather h.inline?_eq c f
    refine (h'.group ihInner hprose (by omega)).trans fun c' f' h'' => ?_
    refine ih _ _ _ rest hprose ?_ hrest h''
    rw [Formatting.depth_gather h'.inline?_eq]
    omega
  | styled w c gap inner m ihInner ih =>
    intro s i ms rest hprose hd hrest h
    rw [Prose.spell, List.append_assoc, List.cons_append, List.append_assoc, List.append_assoc,
      Markup.brace_append] at h
    rw [Prose.depth] at hd
    refine (h.words (Lexeme.forall_mem_head?_cons (by decide) _)).trans fun c f h' => ?_
    have hdepth := Formatting.depth_gather h.inline?_eq c f
    refine (h'.styled ihInner hprose (by omega)).trans fun c' f' h'' => ?_
    refine ih _ _ _ rest hprose ?_ hrest h''
    rw [Formatting.depth_gather h'.inline?_eq]
    omega

/-! ## Whole sources -/

namespace Prose

/-- The words in front. -/
def words : Prose → Words
  | done w | hardBreak w _ | group w _ _ | styled w _ _ _ _ => w

/-- What stands behind them. -/
def bare : Prose → Prose
  | done _ => done .none
  | hardBreak _ rest => hardBreak .none rest
  | group _ inner rest => group .none inner rest
  | styled _ c gap inner rest => styled .none c gap inner rest

theorem spell_eq (m : Prose) : m.spell = m.words.text ++ m.bare.spell := by
  cases m with
  | done w => exact (List.append_nil _).symm
  | _ => rfl

theorem settled_eq (m : Prose) : m.settled = marks m.words.text ++ m.bare.settled := by
  cases m with
  | done w => exact (List.append_nil _).symm
  | _ => rfl

theorem depth_bare (m : Prose) : m.bare.depth = m.depth := by cases m <;> rfl

theorem settled_of_spell_eq_nil {m : Prose} (h : m.spell = []) : m.settled = [] := by
  cases m with
  | done w => rw [settled, show w.text = [] from h, marks_nil]
  | _ => simp [spell, Markup.brace] at h

theorem words_bare (m : Prose) : m.bare.words.text = [] := by cases m <;> rfl

theorem head?_bare (m : Prose) : ∀ u ∈ m.bare.spell.head?, CodeUnit.isPlain u = false := by
  cases m with
  | done w => simp [bare, spell, Words.none]
  | _ => exact Lexeme.forall_mem_head?_cons (by decide) _

/-- Prose has no brackets. -/
theorem bracket_not_mem_spell (m : Prose) : 0x5B ∉ m.spell := by
  have hwords (w : Words) : 0x5B ∉ w.text := fun hmem =>
    absurd (w.isWords _ hmem) (by decide)
  have hname (c : Command) : 0x5B ∉ c.name := by cases c <;> decide
  induction m with
  | done w => exact hwords w
  | hardBreak w rest ih => simp [spell, hwords, ih]
  | group w inner rest ihInner ih => simp [spell, Markup.brace, hwords, ihInner, ih]
  | styled w c gap inner rest ihInner ih =>
    simp [spell, Markup.brace, hwords, hname, ihInner, ih, List.mem_replicate]

end Prose

/-- Where no words stand in front, a paragraph begins, if anything is there. -/
theorem begins_of_words_nil {m : Prose} (hm : m.words.text = []) {mark : LineMark}
    (he : s.environments = []) (h : Faces ctx mark s.cursor m.spell) :
    m.spell = [] ∨ BeginsParagraph ctx s := by
  cases m with
  | done w => exact .inl hm
  | hardBreak w rest =>
    rw [Prose.spell, show w.text = [] from hm] at h
    have hk := h.lineBreak.kind
    refine .inr ⟨?_, ?_, ?_⟩ <;>
      simp [Token.isSpacing, Token.isBlankText, Surround.endsAt, State.beginBlock, hk]
  | group w inner rest =>
    rw [Prose.spell, show w.text = [] from hm] at h
    exact .inr (Formatting.begins_groupOpen (h.single .groupOpen rfl).kind)
  | styled w c gap inner rest =>
    rw [Prose.spell, show w.text = [] from hm] at h
    have hcommand := Formatting.meets_command c h (head?_gap gap _ _)
    exact .inr (Formatting.begins_command he hcommand.kind hcommand.text)

/-- Words without letters are gaps. -/
theorem flagged_of_blank {w : Text} (hw : IsWords w)
    (hblank : ∀ u ∈ w, CodeUnit.isInlineSpace u = true) (ms : List Mark) :
    flagged true (marks w ++ ms) = flagged true ms := by
  induction w with
  | nil => rfl
  | cons u rest ih =>
    obtain ⟨hu, hrest⟩ := List.forall_mem_cons.mp hblank
    have hspace : u = 0x20 := (hw u List.mem_cons_self).resolve_left fun hletter => by
      rw [isInlineSpace_of_isAlphanumeric hletter] at hu
      cases hu
    rw [hspace, marks_space, List.cons_append, flagged_gap rfl]
    exact ih (fun v hv => hw v (List.mem_cons_of_mem u hv)) hrest

/-- Past the space in front, a paragraph begins, if anything is there. -/
theorem exists_begin (m : Prose) {mark : LineMark} (hi : s.inline? = none)
    (he : s.environments = []) (h : Faces ctx mark s.cursor m.spell) :
    ∃ (n : Prose) (c : Cursor) (mark' : LineMark), Leads ctx s { s with cursor := c } ∧ Faces ctx mark' c n.spell ∧
      n.depth = m.depth ∧ flagged true n.settled = flagged true m.settled ∧
      (n.spell = [] ∨ BeginsParagraph ctx { s with cursor := c }) := by
  by_cases hm : m.words.text = []
  · exact ⟨m, s.cursor, mark, .refl s, h, rfl, rfl, begins_of_words_nil hm he h⟩
  have hcovers := Words.covers hm m.head?_bare
  have hnbsp : ∀ u ∈ m.words.text, u ≠ 0xA0 := fun u hu =>
    ne_of_isWordUnit (m.words.isWords u hu) (by decide)
  have hpiece : Formatting.Piece ctx 0 _ _ _ :=
    Formatting.piece_text hcovers rfl rfl rfl hm hnbsp
  rcases hpiece.begins s mark hi he (m.spell_eq ▸ h) with hbegins | hspace
  · exact ⟨m, s.cursor, mark, .refl s, h, rfl, rfl, .inr hbegins⟩
  · obtain ⟨mark', hfaces⟩ := hspace.faces
    refine ⟨m.bare, s.cursor.advance, mark', .of_isSpacing hi hspace.ahead hspace.spacing, hfaces,
      m.depth_bare, ?_, begins_of_words_nil m.words_bare he hfaces⟩
    rw [m.settled_eq, flagged_of_blank m.words.isWords hspace.isInlineSpace]

/-- A paragraph that begins is read to the end of the source. -/
theorem exists_paragraph {m : Prose} {mark : LineMark} (hi : s.inline? = none)
    (he : s.environments = []) (hbegins : BeginsParagraph ctx s)
    (hbracket : 0x5B ∉ ctx.source.toList) (hdepth : m.depth ≤ nestingLimit)
    (h : Faces ctx mark s.cursor m.spell) :
    ∃ c info f, Leads ctx s (s.past c (closedParagraph info f)) ∧
      c.current.kind = .endOfFile ∧ Holds f ∧ Alike (gathered f) m.settled := by
  have hopen := Leads.of_paragraph_start hi hbegins.not_spacing hbegins.not_ends
    hbegins.beginBlock_eq
  have hzero : (s.inLine (.paragraph s.cursor.current.start) s.cursor {}).depth = 0 := by
    simp [State.depth, State.inLine, he, OpenInline.depth, Parse.Line.depth]
  obtain ⟨c, f, hread, hat⟩ := reads hbracket m
    (s.inLine (.paragraph s.cursor.current.start) s.cursor {})
    { line := .paragraph s.cursor.current.start, run := {} } [] [] (.inl rfl) (by omega) (by simp)
    ⟨rfl, holds_empty, .refl _, mark, by rwa [List.append_nil]⟩
  obtain ⟨_, hfaces⟩ := hat.faces
  have hk := hfaces.endOfFile
  have hclose : Surround.endsAt s.inList c.current .paragraph = true := by
    simp [Surround.endsAt, show c.current.kind = .endOfFile from hk]
  exact ⟨c, _, f, hopen.trans (hread.trans (.of_paragraph_end hi hclose)), hk, hat.holds, hat.alike⟩

/-- A run over prose comes to a paragraph, if to anything, that has the gaps of what is settled. -/
theorem outcomeOf_spell (settings : Settings) (m : Prose) (hdepth : m.depth ≤ nestingLimit) :
    ∃ info f, Parse.outcomeOf settings m.spell = .ok (closedParagraph info f, []) ∧ Holds f ∧
      flagged true (gathered f) = flagged true m.settled := by
  obtain ⟨n, c, mark, hlead, hfaces, hn, hflagged, hbegins⟩ := exists_begin m
    (s := .initial settings m.spell) rfl rfl (Parse.faces_initial settings m.spell)
  rw [← hflagged]
  rcases hbegins with hnil | hbegins
  · rw [hnil] at hfaces
    refine ⟨.span 0 0, {}, hlead.outcomeOf_eq rfl rfl hfaces.endOfFile, holds_empty, ?_⟩
    rw [Prose.settled_of_spell_eq_nil hnil]
    rfl
  · obtain ⟨c', info, f, hread, hk, hholds, halike⟩ := exists_paragraph rfl rfl hbegins
      m.bracket_not_mem_spell (hn ▸ hdepth) hfaces
    rw [State.past_of_environments_nil rfl] at hread
    refine ⟨info, f, ?_, hholds, halike.flagged_eq true⟩
    rw [(hlead.trans hread).outcomeOf_eq rfl rfl hk]
    exact congrArg (fun blocks => Except.ok (blocks, [])) (List.append_nil _)

/-- What a paragraph is written as. -/
theorem written_closedParagraph (settings : Settings) (info : NodeInfo) (f : Fragments) :
    Concatenation.written settings (closedParagraph info f) []
      = .ok ⟨Markdown.inlineText [0x0A] false f.finish, []⟩ := by
  unfold closedParagraph
  split
  · next hempty =>
    rw [List.isEmpty_iff.mp hempty]
    rfl
  · refine Concatenation.written_eq_ok_iff.mpr ⟨rfl, ?_⟩
    simp [Markdown.blocksLines, Markdown.blockLines, Markdown.inlineLines, Text.join_splitOn]

variable {options : Options} {settings : Settings}

/-- Prose is converted without diagnostics, to an output that has the gaps of what is settled. -/
theorem exists_output (hsettings : options.resolve = .ok settings) (m : Prose)
    (hdepth : m.depth ≤ nestingLimit) :
    ∃ output, convertWithDiagnostics m.spell options = .ok { output, diagnostics := [] } ∧
      flagged true (marks output) = flagged true m.settled := by
  obtain ⟨info, f, houtcome, hholds, hflagged⟩ := outcomeOf_spell settings m hdepth
  refine ⟨Markdown.inlineText [0x0A] false f.finish, ?_, ?_⟩
  · rw [Concatenation.convertWithDiagnostics_of_outcomeOf hsettings houtcome,
      written_closedParagraph]
  · exact (flagged_normalize hholds.sturdy).2.trans hflagged

/-- Prose is converted without diagnostics.  All its letters are written, in their order, with a
space or a line feed between two of them just where one is settled; so a forced break keeps apart
the words beside it, unless it stands at the edge of a formatted group around it. -/
theorem convert_spell (hsettings : options.resolve = .ok settings) (m : Prose)
    (hdepth : m.depth ≤ 256) :
    ∃ output, convertWithDiagnostics m.spell options = .ok { output, diagnostics := [] } ∧
      output.filter CodeUnit.isAlphanumeric = m.erase ∧
      (∀ l r, l ≠ [] → r ≠ [] → (KeepsApart output l r ↔ Apart m.settled l r)) ∧
      ∀ p ∈ m.heldBreaks, p.1 ≠ [] → p.2 ≠ [] → KeepsApart output p.1 p.2 := by
  obtain ⟨output, hconvert, hflagged⟩ := exists_output hsettings m hdepth
  have happart : ∀ l r, l ≠ [] → r ≠ [] → (KeepsApart output l r ↔ Apart m.settled l r) :=
    fun l r hl hr => keepsApart_iff.trans (apart_congr hl hr hflagged)
  refine ⟨output, hconvert, ?_, happart, fun p hp hl hr => ?_⟩
  · rw [← letters_marks, ← map_snd_flagged true, hflagged, map_snd_flagged, m.letters_settled]
  · exact (happart p.1 p.2 hl hr).mpr (m.apart_of_mem_heldBreaks p hp)

/-- A break between the words of a formatted group, in a group that has a break at its edge. -/
def sample : Prose :=
  .styled ⟨"a ", by decide⟩ .textbf 1
    (.styled ⟨"b ", by decide⟩ .emph 0 (.hardBreak ⟨"c", by decide⟩ (.done ⟨"d", by decide⟩))
      (.hardBreak .none (.done .none)))
    (.done ⟨"e", by decide⟩)

/-- The source of the sample. -/
def sampleSource : Text := "a \\textbf \x7bb \\emph\x7bc\\\\d\x7d\\\\\x7de"

theorem convert_spell_sample :
    sample.depth ≤ 256 ∧ ∃ output,
      convertWithDiagnostics sampleSource {} = .ok { output, diagnostics := [] } ∧
        output.filter CodeUnit.isAlphanumeric = ("abcde" : Text) ∧
        KeepsApart output "abc" "de" := by
  have hspell : sample.spell = sampleSource := by decide
  have hdepth : sample.depth ≤ 256 := by decide
  have hheld : (("abc", "de") : Text × Text) ∈ sample.heldBreaks := by decide
  obtain ⟨output, hconvert, hletters, -, hbreaks⟩ := convert_spell
    (show Options.resolve {} = .ok {} from rfl) sample hdepth
  exact ⟨hdepth, output, hspell ▸ hconvert, hletters.trans (by decide),
    hbreaks _ hheld (by decide) (by decide)⟩

/-- A formatted group with nothing but a break, between two words. -/
def edgeSample : Prose :=
  .styled ⟨"a", by decide⟩ .textbf 0 (.hardBreak .none (.done .none)) (.done ⟨"b", by decide⟩)

/-- Not every forced break keeps apart the words beside it. -/
theorem not_forall_forcedBreaks_keepApart :
    ¬ ∀ (m : Prose) (c : Conversion), m.depth ≤ 256 →
      convertWithDiagnostics m.spell {} = .ok c →
      ∀ p ∈ m.forcedBreaks, p.1 ≠ [] → p.2 ≠ [] → KeepsApart c.output p.1 p.2 := by
  intro hall
  obtain ⟨output, hconvert, hflagged⟩ := exists_output
    (show Options.resolve {} = .ok {} from rfl) edgeSample (by decide)
  have hmem : (([0x61], [0x62]) : Text × Text) ∈ edgeSample.forcedBreaks := by decide
  have happart := keepsApart_iff.mp
    (hall edgeSample _ (by decide) hconvert _ hmem (by decide) (by decide))
  have hsettled : edgeSample.settled = [.letter 0x61, .letter 0x62] := by decide
  rw [apart_congr (by decide) (by decide) hflagged, hsettled] at happart
  -- Behind the first letter there is no gap before the second.
  obtain ⟨l, hl, hrest⟩ := apart_letter.mp happart
  obtain ⟨l', rfl, -⟩ := apart_letter.mp hrest
  cases hl

end Breaks

end LatexMarkdown
