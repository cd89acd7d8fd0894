import LatexMarkdown.Proofs.Comments.Tokens
import LatexMarkdown.Proofs.Likeness
/-!
  Steps where comments are kept, followed where they are dropped.

  A comment in inline content is read where it is kept, and nothing happens where it is dropped.
  Between blocks it begins a paragraph where it is kept; the other reading stays between blocks until
  the paragraph ends or has something else in it (`Parse.Likeness.Commented`).  So a step of the first
  reading is followed by one step of the second or by none (`Parse.Likeness.Follows.step`).  Only where
  a command comes next that a float drops and a paragraph keeps do the two part.
-/
namespace LatexMarkdown

/-- Does the token add nothing of its own to a paragraph that a comment began?  Comments, space and
dropped commands do not. -/
def Token.isIncidental (t : Token) : Bool :=
  t.kind == .comment || t.isArgumentSpacing ||
    (t.kind == .command && (droppedArgumentCount? t.text).isSome)

namespace Parse

/-! ## Paragraphs that comments begin -/

namespace State

/-- Does a step lead into a paragraph that has had nothing but comments, space and dropped commands?
`begun` says that the state is in one. -/
def commented (begun : Bool) (s : State) : Bool :=
  match s.inline? with
  | none => s.cursor.skipSpacing.current.kind == .comment
  | some _ => begun && s.cursor.current.isIncidental

/-- A command comes next that is dropped between the blocks of a float, but not in a paragraph. -/
def AtFloatCommand (s : State) : Prop :=
  s.cursor.current.kind = .command ∧ droppedArgumentCount? s.cursor.current.text = none ∧
    s.droppedCount? s.cursor.current.text ≠ none

instance (s : State) : Decidable s.AtFloatCommand := inferInstanceAs (Decidable (_ ∧ _ ∧ _))

end State

theorem not_heading_of_dropped {name : Text} {count : Nat} (h : droppedArgumentCount? name = some count) :
    headingLevel? name = none ∧ name ≠ "item" := by
  have hall : ∀ entry ∈ droppedCommands, headingLevel? entry.1 = none ∧ entry.1 ≠ "item" := by decide
  exact hall (name, count) (State.mem_of_lookup h)

/-- A token that ends a paragraph is something of its own. -/
theorem Surround.isIncidental_of_endsAt {inList : Bool} {t : Token}
    (h : Surround.paragraph.endsAt inList t = true) : t.isIncidental = false := by
  rw [endsAt] at h
  cases hk : t.kind <;> rw [hk] at h <;>
    try simp [Token.isIncidental, Token.isArgumentSpacing, Token.isBlankText, hk] at h ⊢
  · exact h
  · cases hcount : droppedArgumentCount? t.text with
    | none => rfl
    | some count =>
      obtain ⟨hheading, hitem⟩ := not_heading_of_dropped hcount
      simp [hheading, hitem] at h

theorem Surround.endsAt_comment (u : Surround) (inList : Bool) {t : Token} (hk : t.kind = .comment) :
    u.endsAt inList t = false := by
  cases u <;> simp [endsAt, hk]

theorem Surround.endsAt_lineBreak (u : Surround) (inList : Bool) {t : Token} (hk : t.kind = .newLine)
    (hblank : t.isBlankLine = false) : u.endsAt inList t = false := by
  cases u <;> simp [endsAt, hk, hblank]

namespace State

variable {ctx : Context} {s : State} {i : OpenInline}

/-- A comment is passed, and out of a table its line break with it. -/
theorem exists_takeComment_eq (s : State) (i : OpenInline) :
    ∃ f, s.takeComment i = s.gather i s.cursor.advance f ∨
      (s.cursor.advance.current.kind = .newLine ∧
        s.takeComment i = s.gather i s.cursor.advance.advance f) := by
  simp only [takeComment]
  split
  · exact ⟨_, .inl rfl⟩
  split
  · next hbreak => exact ⟨_, .inr ⟨hbreak.1, rfl⟩⟩
  · exact ⟨_, .inl rfl⟩

theorem step_comment (hi : s.inline? = some i) (hk : s.cursor.current.kind = .comment) :
    s.step ctx = .ok (some (s.takeComment i)) := by
  rw [step_of_not_endsAt hi (i.surround.endsAt_comment _ hk)]
  simp only [takeToken, Cursor.marker, hk]
  rfl

theorem step_lineBreak (hi : s.inline? = some i) (hk : s.cursor.current.kind = .newLine)
    (hblank : s.cursor.current.isBlankLine = false) :
    s.step ctx = .ok (some (s.takeSpace i)) := by
  rw [step_of_not_endsAt hi (i.surround.endsAt_lineBreak _ hk hblank)]
  simp only [takeToken, Cursor.marker, hk]
  rfl

/-- Between blocks a comment begins a paragraph. -/
theorem step_between_comment (ctx : Context) (hn : s.inline? = none)
    (hk : s.cursor.skipSpacing.current.kind = .comment) :
    ∃ i : OpenInline, (∃ start, i = { line := .paragraph start }) ∧
      s.step ctx = .ok (some (({ s with
        cursor := s.cursor.skipSpacing, inline? := some i } : State).takeComment i)) := by
  refine ⟨_, ⟨s.cursor.skipSpacing.current.start, rfl⟩, ?_⟩
  have hbegin : ({ s with cursor := s.cursor.skipSpacing } : State).beginParagraph ctx = _ :=
    beginParagraph_of_not_endsAt (Surround.paragraph.endsAt_comment _ hk)
  rw [Likeness.step_between hn]
  simp only [takeBlock, beginBlock, hk, hbegin, takeToken, Cursor.marker]
  rfl

/-- Between blocks a paragraph begins with anything that would not end one, commands that are dropped
apart. -/
theorem step_between_paragraph (hn : s.inline? = none)
    (hends : Surround.paragraph.endsAt s.inList s.cursor.skipSpacing.current = false)
    (hdropped : s.cursor.skipSpacing.current.kind = .command →
      s.droppedCount? s.cursor.skipSpacing.current.text = none) :
    s.step ctx
      = some <$> ({ s with cursor := s.cursor.skipSpacing } : State).beginParagraph ctx := by
  have hcommand : s.cursor.skipSpacing.current.kind = .command →
      ({ s with cursor := s.cursor.skipSpacing } : State).takeBlockCommand ctx
        = ({ s with cursor := s.cursor.skipSpacing } : State).beginParagraph ctx := by
    intro hk
    simp only [Surround.endsAt, hk, Bool.or_eq_false_iff] at hends
    have hheading : headingLevel? s.cursor.skipSpacing.current.text = none := by
      simpa using hends.1
    have hcount : ({ s with cursor := s.cursor.skipSpacing } : State).droppedCount?
        s.cursor.skipSpacing.current.text = none := hdropped hk
    have hother : ({ s with cursor := s.cursor.skipSpacing } : State).takeOtherCommand ctx
        = ({ s with cursor := s.cursor.skipSpacing } : State).beginParagraph ctx := by
      simp only [takeOtherCommand, hheading, hcount]
    unfold takeBlockCommand
    split
    · next hlist =>
      have hin : s.inList = true := by
        rw [inList, show s.environments = _ from hlist]
        rfl
      rw [if_neg (by simpa [hin] using hends.2), hother]
    · exact hother
  rw [Likeness.step_between hn]
  simp only [takeBlock, beginBlock]
  cases hk : s.cursor.skipSpacing.current.kind with
  | command => simp only [hcommand hk]
  | mathDisplay =>
    simp only [Surround.endsAt, hk] at hends
    simp only [hends, Bool.false_eq_true, if_false]
  | endOfFile | envBegin | envEnd => simp [Surround.endsAt, hk] at hends
  | _ => rfl

/-- Between blocks a dropped command is skipped. -/
theorem step_between_dropped (hn : s.inline? = none) {count : Nat}
    (hk : s.cursor.skipSpacing.current.kind = .command)
    (hcount : droppedArgumentCount? s.cursor.skipSpacing.current.text = some count) :
    s.step ctx = (fun c => some { s with cursor := c })
      <$> skipCommand ctx.source count s.cursor.skipSpacing := by
  obtain ⟨hheading, hitem⟩ := not_heading_of_dropped hcount
  have hdropped : ({ s with cursor := s.cursor.skipSpacing } : State).droppedCount?
      s.cursor.skipSpacing.current.text = some count := by
    rw [droppedCount?, hcount]
    rfl
  rw [Likeness.step_between hn]
  simp only [takeBlock, beginBlock, hk]
  rw [takeBlockCommand_of_ne_item hitem]
  simp only [takeOtherCommand, hheading, hdropped]
  cases skipCommand ctx.source count s.cursor.skipSpacing <;> rfl

end State

/-! ## Passing comments -/

namespace Likeness

variable {R : Likeness} {b : Bool} {c c' : Cursor}

/-- A comment comes next that the second list lacks, or the line break behind one, or both lists have
the same token. -/
theorem Along.passes (h : R.Along b c c') :
    (c.current.kind = .comment ∧ R.Along true c.advance c') ∨
      (c.current.kind = .newLine ∧ c.current.isBlankLine = false ∧ R.Along false c.advance c') ∨
        R.At c c' := by
  have hmeets : ∀ hmeets : R.Meets c.ahead c'.ahead, R.At c c' := fun hmeets =>
    ⟨h.reach (.refl c) (.refl c') hmeets.pairs, hmeets⟩
  have hp := h.pairs
  generalize ha : c.ahead = l at hp hmeets
  generalize ha' : c'.ahead = l' at hp hmeets
  cases hp with
  | nil => exact .inr (.inr (hmeets (.inl ⟨rfl, rfl⟩)))
  | same hs hend hcomment hrest =>
    exact .inr (.inr (hmeets (.inr ⟨_, _, _, _, rfl, rfl, hs, hend, hcomment, hrest⟩)))
  | comment hthin hk hrest =>
    refine .inl ⟨by rw [Cursor.current_of_ahead ha, hk], h.reach (.advance c) (.refl c') ?_⟩
    rw [Cursor.ahead_advance ha (by rw [hk]; decide), ha']
    exact hrest
  | lineBreak hthin hk hblank _ hrest =>
    refine .inr (.inl ⟨by rw [Cursor.current_of_ahead ha, hk],
      by rw [Cursor.current_of_ahead ha, hblank], h.reach (.advance c) (.refl c') ?_⟩)
    rw [Cursor.ahead_advance ha (by rw [hk]; decide), ha']
    exact hrest

/-- Behind a comment comes its line break, if anything. -/
theorem Along.passes_lineBreak (h : R.Along true c c') (hk : c.current.kind = .newLine) :
    R.Along false c.advance c' := by
  obtain ⟨hcomment, -⟩ | ⟨-, -, hrest⟩ | hat := h.passes
  · rw [hk] at hcomment
    cases hcomment
  · exact hrest
  · have hend : c.current.kind ≠ .endOfFile := by rw [hk]; decide
    have hp := h.pairs
    rw [Cursor.ahead_eq_cons h.terminated hend] at hp
    cases hp with
    | lineBreak hthin hk' hblank _ hrest =>
      refine h.reach (.advance c) (.refl c') ?_
      rwa [Cursor.ahead_advance (Cursor.ahead_eq_cons h.terminated hend) hend]

/-- Between blocks comments and space are passed. -/
theorem Near.passes (hthin : R.thin) (h : R.Near c c')
    (hk : c.current.kind = .comment ∨ c.current.isSpacing = true) : R.Near c.advance c' := by
  have hend : c.current.kind ≠ .endOfFile := by
    rcases hk with hk | hk
    · rw [hk]
      decide
    · exact Token.kind_ne_endOfFile_of_isSpacing hk
  have ha := Cursor.ahead_eq_cons h.terminated hend
  have hreach : c.Reaches c.advance := .advance c
  refine ⟨?_, hreach.terminated h.terminated, h.terminated', fun hthin => ?_⟩
  · obtain ⟨b, k, hp, hspacing⟩ := h.pairs
    rw [Cursor.ahead_advance ha hend]
    rw [ha] at hp
    generalize c.current = t, c.ahead.tail = l at hp hk ⊢
    cases hp with
    | @same _ t' _ k' hs _ hcomment hrest =>
      have hspacing' : t'.isSpacing = true := hs.isSpacing.trans (hk.resolve_left (hcomment hthin))
      rw [List.dropWhile_cons, if_pos hspacing'] at hspacing
      exact ⟨false, k', hrest, hspacing⟩
    | comment _ _ hrest => exact ⟨true, k, hrest, hspacing⟩
    | lineBreak _ _ _ _ hrest => exact ⟨false, k, hrest, hspacing⟩
  · obtain ⟨before, hbefore⟩ := remaining_suffix hreach
    exact (hbefore ▸ h.tame hthin).of_append

/-! ## Steps -/

variable {settings : Settings} {source : Text} {s s' : State} {i i' : OpenInline}

/-- The one state is in a paragraph that a comment began and that has had nothing of its own so far;
the other state, in which there are no comments, is still between blocks. -/
structure Commented (R : Likeness) (i : OpenInline) (s s' : State) : Prop where
  inline?_eq : s.inline? = some i
  line : ∃ start, i.line = .paragraph start
  braces : i.run.braces = []
  arguments : i.arguments = []
  alike : R.Alike { s with inline? := none } s'
  near : R.Near s.cursor s'.cursor

/-- How two states compare; the flag says that a paragraph is being read which a comment began. -/
inductive Follows (R : Likeness) : Bool → State → State → Prop
  | stands {s s' : State} (h : R.Stands s s') : Follows R false s s'
  | commented {i : OpenInline} {s s' : State} (h : R.Commented i s s') : Follows R true s s'

namespace Commented

theorem surround (h : R.Commented i s s') : i.surround = .paragraph := by
  obtain ⟨start, hline⟩ := h.line
  rw [OpenInline.surround, h.braces, h.arguments, hline]

theorem inline?_eq_none (h : R.Commented i s s') : s'.inline? = none :=
  h.alike.inline?_eq_none rfl

/-- Reading on in the paragraph without adding anything of its own. -/
theorem gather (h : R.Commented i s s') (hc : R.Near c c') (f : Fragments) (ds : List Diagnostic) :
    R.Commented (i.withFragments f) (({ s with diagnostics := ds } : State).gather i c f)
      { s' with cursor := c' } :=
  ⟨rfl, h.line, h.braces, h.arguments, ⟨h.alike.blocks, h.alike.environments, h.alike.inline?⟩, hc⟩

theorem takeComment (hthin : R.thin) (h : R.Commented i s s') (hk : s.cursor.current.kind = .comment) :
    R.Follows true (s.takeComment i) s' := by
  have hnear : R.Near s.cursor.advance s'.cursor := h.near.passes hthin (.inl hk)
  obtain ⟨f, heq | ⟨hbreak, heq⟩⟩ := s.exists_takeComment_eq i
  · rw [heq]
    exact .commented (h.gather hnear f s.diagnostics)
  · rw [heq]
    refine .commented (h.gather (hnear.passes hthin (.inr ?_)) f s.diagnostics)
    simp [Token.isSpacing, hbreak]

/-- Where the paragraph ends, both readings are between blocks. -/
theorem closeParagraph (h : (comments settings source).Commented i s s') (start : Nat) (f : Fragments) :
    (comments settings source).Stands (s.closeParagraph start f) s' := by
  have halike : (comments settings source).Alike (s.closeParagraph start f) s' := by
    rw [closeParagraph_eq, ← addBlocks_nil s']
    exact h.alike.addBlocks trivial
  refine ⟨halike, by rw [State.cursor_closeParagraph]; exact h.near, fun hinline => ?_⟩
  rw [State.inline?_closeParagraph] at hinline
  cases hinline

theorem step_of_endsAt (h : R.Commented i s s')
    (hends : Surround.paragraph.endsAt s.inList s.cursor.current = true) :
    ∃ start, s.step R.ctx = .ok (some (s.closeParagraph start i.run.fragments)) := by
  obtain ⟨start, hline⟩ := h.line
  refine ⟨start, ?_⟩
  rw [State.step_of_endsAt h.inline?_eq (h.surround ▸ hends)]
  simp only [State.closeInline, h.braces, h.arguments, hline]
  rfl

theorem step_of_not_endsAt (h : R.Commented i s s')
    (hends : Surround.paragraph.endsAt s.inList s.cursor.current = false) :
    s.step R.ctx = some <$> s.takeToken R.ctx i :=
  State.step_of_not_endsAt h.inline?_eq (h.surround ▸ hends)

/-- Space in the paragraph is passed. -/
theorem step_spacing (hthin : R.thin) (h : R.Commented i s s')
    (hs : s.cursor.current.isArgumentSpacing = true) :
    ∃ t, s.step R.ctx = .ok (some t) ∧ R.Follows true t s' := by
  have hnear : R.Near s.cursor.advance s'.cursor :=
    h.near.passes hthin (.inr (Token.isSpacing_of_isArgumentSpacing hs))
  have hends : Surround.paragraph.endsAt s.inList s.cursor.current = false := by
    cases hends : Surround.paragraph.endsAt s.inList s.cursor.current with
    | false => rfl
    | true =>
      have hown := Surround.isIncidental_of_endsAt hends
      simp [Token.isIncidental, hs] at hown
  rw [h.step_of_not_endsAt hends]
  simp only [Token.isArgumentSpacing, Token.isBlankText, Bool.or_eq_true, Bool.and_eq_true,
    beq_iff_eq] at hs
  rcases hs with ⟨hk, -⟩ | ⟨hk, -⟩
  · refine ⟨s.takeText i, by simp only [State.takeToken, Cursor.marker, hk]; rfl, ?_⟩
    simp only [State.takeText]
    split
    · exact .commented (h.gather hnear _ _)
    · exact .commented (h.gather hnear _ s.diagnostics)
  · refine ⟨s.takeSpace i, by simp only [State.takeToken, Cursor.marker, hk]; rfl, ?_⟩
    exact .commented (h.gather hnear _ s.diagnostics)

/-- At anything else the other reading is at the same token. -/
theorem at_skipSpacing (h : R.Commented i s s') (hk : s.cursor.current.kind ≠ .comment)
    (hs : s.cursor.current.isSpacing = false) : R.At s.cursor s'.cursor.skipSpacing := by
  have hself : s.cursor.skipSpacing = s.cursor := Cursor.skipSpacing_eq_self hs
  have hat := h.near.at_skipSpacing (fun _ => by rw [hself]; exact hk)
  rwa [hself] at hat

/-- A dropped command is skipped by both readings. -/
theorem agree_dropped (h : (comments settings source).Commented i s s')
    (hk : s.cursor.current.kind = .command) {count : Nat}
    (hcount : droppedArgumentCount? s.cursor.current.text = some count) :
    Agree (Option.Rel ((comments settings source).Follows true))
      (s.step (comments settings source).ctx) (s'.step (comments settings source).ctx') := by
  have hat := h.at_skipSpacing (by rw [hk]; decide) (by simp [Token.isSpacing, Token.isBlankText, hk])
  have hname : s'.cursor.skipSpacing.current.text = s.cursor.current.text :=
    (hat.same (by rw [hk]; decide)).name (by rw [hk]; decide) (by rw [hk]; decide)
  obtain ⟨hheading, hitem⟩ := not_heading_of_dropped hcount
  have hends : Surround.paragraph.endsAt s.inList s.cursor.current = false := by
    simp [Surround.endsAt, hk, hheading, hitem]
  have hdropped : i.droppedCount? s.cursor.current.text = some count := by
    rw [OpenInline.droppedCount?, hcount]
    rfl
  have htake : s.takeToken (comments settings source).ctx i
      = s.dropCommand (comments settings source).ctx i count := by
    simp only [State.takeToken, State.takeCommand, Cursor.marker, Marker.text, hk, hheading, hdropped]
    rfl
  rw [h.step_of_not_endsAt hends, htake, State.step_between_dropped h.inline?_eq_none
    (hat.kind.trans hk) (hname ▸ hcount)]
  have hskip := agree_skipCommand hat hk count
  rw [State.dropCommand]
  generalize skipCommand (comments settings source).ctx.source count s.cursor = x at hskip ⊢
  generalize skipCommand (comments settings source).ctx'.source count s'.cursor.skipSpacing = x'
    at hskip ⊢
  cases hskip with
  | error => exact .error _ _
  | ok hd => exact .ok (.some (.commented (h.gather hd.toAlong.near _ s.diagnostics)))

/-- Anything else begins the paragraph of the other reading. -/
theorem agree_paragraph (h : (comments settings source).Commented i s s')
    (hends : Surround.paragraph.endsAt s.inList s.cursor.current = false)
    (hown : s.cursor.current.isIncidental = false) (hfloat : ¬ s.AtFloatCommand) :
    Agree (Option.Rel ((comments settings source).Follows false))
      (s.step (comments settings source).ctx) (s'.step (comments settings source).ctx') := by
  simp only [Token.isIncidental, Bool.or_eq_false_iff, beq_eq_false_iff_ne] at hown
  obtain ⟨⟨hcomment, hspacing⟩, hdropped⟩ := hown
  have hs : s.cursor.current.isSpacing = false := by
    simp only [Token.isArgumentSpacing, Bool.or_eq_false_iff] at hspacing
    rw [Token.isSpacing, hspacing.1, Bool.false_or, beq_eq_false_iff_ne]
    -- A line break that is no space before an argument ends a blank line.
    intro hk
    simp [Surround.endsAt, hk] at hends
    simp [hk, hends] at hspacing
  have hat := h.at_skipSpacing hcomment hs
  have hends' : Surround.paragraph.endsAt s'.inList s'.cursor.skipSpacing.current = false := by
    rw [OfSurround.paragraph.endsAt hat, h.alike.inList]
    exact hends
  have hcount : s'.cursor.skipSpacing.current.kind = .command →
      s'.droppedCount? s'.cursor.skipSpacing.current.text = none := by
    intro hk
    have hk : s.cursor.current.kind = .command := hat.kind ▸ hk
    have hnone : droppedArgumentCount? s.cursor.current.text = none := by simpa [hk] using hdropped
    have hname : s'.cursor.skipSpacing.current.text = s.cursor.current.text :=
      (hat.same (by rw [hk]; decide)).name (by rw [hk]; decide) (by rw [hk]; decide)
    rw [hname, h.alike.droppedCount?]
    by_contra hsome
    exact hfloat ⟨hk, hnone, hsome⟩
  obtain ⟨start, hline⟩ := h.line
  have hcontent : (comments settings source).OfContent i
      { line := .paragraph s'.cursor.skipSpacing.current.start } := by
    refine ⟨?_, ⟨trivial, ?_⟩, ?_⟩
    · rw [hline]
      exact .paragraph _ _
    · rw [h.braces]
      exact .nil
    · rw [h.arguments]
      exact .nil
  have halike : (comments settings source).Alike s { s' with
      cursor := s'.cursor.skipSpacing
      inline? := some { line := .paragraph s'.cursor.skipSpacing.current.start } } := by
    refine ⟨h.alike.blocks, h.alike.environments, ?_⟩
    rw [h.inline?_eq]
    exact .some hcontent
  rw [h.step_of_not_endsAt hends, State.step_between_paragraph h.inline?_eq_none hends' hcount]
  rw [State.beginParagraph_of_not_endsAt
    (s := { s' with cursor := s'.cursor.skipSpacing }) hends']
  exact (agree_takeToken halike hcontent hat).map fun _ _ ht => .some (.stands ht)

end Commented

/-- Comments and their line breaks are passed in inline content, whatever they add to the fragments of
the first reading, as long as these stay related to those of the second. -/
theorem Stands.pass {f : Fragments} (h : R.Stands s s') (hi : s.inline? = some i)
    (hc : R.Along b c s'.cursor)
    (hf : ∀ f', R.fragments i.run.fragments f' → R.fragments f f') :
    R.Stands (s.gather i c f) s' := by
  obtain ⟨i', hi', hii⟩ := h.alike.exists_content hi
  have halike : R.Alike (s.gather i c f) s' := by
    refine ⟨h.alike.blocks, h.alike.environments, ?_⟩
    rw [hi']
    exact .some ⟨hii.line, ⟨hf _ hii.run.fragments, hii.run.braces⟩, hii.arguments⟩
  exact halike.stands hc

/-- A step in inline content. -/
theorem Stands.follows_inside (h : (comments settings source).Stands s s') (hi : s.inline? = some i) :
    (∃ t, s.step (comments settings source).ctx = .ok (some t) ∧
        (comments settings source).Stands t s') ∨
      Agree (Option.Rel (comments settings source).Stands) (s.step (comments settings source).ctx)
        (s'.step (comments settings source).ctx') := by
  obtain ⟨b, hc⟩ := h.along (by rw [hi]; rfl)
  obtain ⟨hk, hbehind⟩ | ⟨hk, hblank, hrest⟩ | hat := hc.passes
  · refine .inl ⟨_, State.step_comment hi hk, ?_⟩
    obtain ⟨f, heq | ⟨hbreak, heq⟩⟩ := s.exists_takeComment_eq i
    · rw [heq]
      exact h.pass hi hbehind fun _ _ => trivial
    · rw [heq]
      exact h.pass hi (hbehind.passes_lineBreak hbreak) fun _ _ => trivial
  · exact .inl ⟨_, State.step_lineBreak hi hk hblank, h.pass hi hrest fun _ _ => trivial⟩
  · obtain ⟨i', hi', hii⟩ := h.alike.exists_content hi
    exact .inr (agree_step_inside h.alike hi hi' hii hat)

/-- A step between blocks. -/
theorem Stands.follows_between (h : (comments settings source).Stands s s') (hn : s.inline? = none) :
    (∃ t, s.step (comments settings source).ctx = .ok (some t) ∧
        (comments settings source).Follows (s.commented false) t s') ∨
      Agree (Option.Rel ((comments settings source).Follows (s.commented false)))
        (s.step (comments settings source).ctx) (s'.step (comments settings source).ctx') := by
  simp only [State.commented, hn]
  by_cases hk : s.cursor.skipSpacing.current.kind = .comment
  · obtain ⟨i, ⟨start, rfl⟩, hstep⟩ :=
      State.step_between_comment (comments settings source).ctx hn hk
    refine .inl ⟨_, hstep, ?_⟩
    have hcommented : (comments settings source).Commented { line := .paragraph start }
        { s with cursor := s.cursor.skipSpacing, inline? := some { line := .paragraph start } } s' :=
      ⟨rfl, ⟨start, rfl⟩, rfl, rfl, ⟨h.alike.blocks, h.alike.environments, hn ▸ h.alike.inline?⟩,
        h.near.skipSpacing (.refl _) rfl⟩
    rw [hk]
    exact hcommented.takeComment trivial hk
  · refine .inr ?_
    rw [beq_eq_false_iff_ne.mpr hk, step_between hn, step_between (h.alike.inline?_eq_none hn)]
    exact (agree_takeBlock h.alike hn (h.near.at_skipSpacing fun _ => hk)).mono fun _ _ hx =>
      hx.mono fun _ _ => .stands

/-- A step is followed by one step of the other reading or by none, unless it is at a command that
only a float drops. -/
theorem Follows.step (h : (comments settings source).Follows b s s')
    (hfloat : b = true → ¬ s.AtFloatCommand) :
    (∃ t, s.step (comments settings source).ctx = .ok (some t) ∧
        (comments settings source).Follows (s.commented b) t s') ∨
      Agree (Option.Rel ((comments settings source).Follows (s.commented b)))
        (s.step (comments settings source).ctx) (s'.step (comments settings source).ctx') := by
  cases h with
  | stands h =>
    cases hi : s.inline? with
    | none => exact h.follows_between hi
    | some i =>
      have hb : s.commented false = false := by simp only [State.commented, hi, Bool.false_and]
      rw [hb]
      obtain ⟨t, hstep, ht⟩ | hagree := h.follows_inside hi
      · exact .inl ⟨t, hstep, .stands ht⟩
      · exact .inr (hagree.mono fun _ _ hx => hx.mono fun _ _ => .stands)
  | @commented i _ _ h =>
    have hb : s.commented true = s.cursor.current.isIncidental := by
      simp only [State.commented, h.inline?_eq, Bool.true_and]
    rw [hb]
    cases hends : Surround.paragraph.endsAt s.inList s.cursor.current with
    | true =>
      obtain ⟨start, hstep⟩ := h.step_of_endsAt hends
      rw [Surround.isIncidental_of_endsAt hends]
      exact .inl ⟨_, hstep, .stands (h.closeParagraph start _)⟩
    | false =>
      cases hown : s.cursor.current.isIncidental with
      | false => exact .inr (h.agree_paragraph hends hown (hfloat rfl))
      | true =>
        simp only [Token.isIncidental, Bool.or_eq_true, Bool.and_eq_true, beq_iff_eq] at hown
        obtain (hk | hs) | ⟨hk, hdropped⟩ := hown
        · exact .inl ⟨_, State.step_comment h.inline?_eq hk, h.takeComment trivial hk⟩
        · exact .inl (h.step_spacing trivial hs)
        · obtain ⟨count, hcount⟩ := Option.isSome_iff_exists.mp hdropped
          exact .inr (h.agree_dropped hk hcount)

end Likeness

end Parse

end LatexMarkdown
