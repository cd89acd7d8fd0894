import LatexMarkdown.Parse.Block
/-!
  Every step of reading gets on.

  Main statement: `State.step_progress`.  A step that goes on passes tokens, or closes a paragraph
  and passes none; `State.weight`, twice the tokens left and one for open inline content, gets
  smaller either way.  What it rests on between blocks is that no paragraph is begun at a token that
  ends it (`endsAt_paragraph_mathDisplay`, `endsAt_paragraph_command`, `endsAt_paragraph_other`).
-/
namespace LatexMarkdown

namespace Cursor

/-- The second cursor lies behind the current token of the first, which is no end-of-file token. -/
def Passes (c d : Cursor) : Prop := c.current.kind ≠ .endOfFile ∧ c.advance.Reaches d

namespace Passes

theorem reaches {c d : Cursor} (h : c.Passes d) : c.Reaches d := (Reaches.advance c).trans h.2

theorem trans {c d e : Cursor} (h : c.Passes d) (h' : d.Reaches e) : c.Passes e :=
  ⟨h.1, h.2.trans h'⟩

theorem of_reaches {c d e : Cursor} (h : c.Reaches d) (h' : d.Passes e) (hc : c.Terminated) :
    e.ahead.length < c.ahead.length :=
  Nat.lt_of_le_of_lt h'.2.length_ahead_le
    (Nat.lt_of_lt_of_le (length_ahead_advance_lt (h.terminated hc) h'.1) h.length_ahead_le)

end Passes

end Cursor

namespace Parse

open Cursor (Reaches Passes)

theorem exists_of_bind_ok {ε α β : Type} {x : Except ε α} {f : α → Except ε β} {b : β}
    (h : (x >>= f) = .ok b) : ∃ a, x = .ok a ∧ f a = .ok b := by
  cases x with
  | error e => exact absurd h (by simp [bind, Except.bind])
  | ok a => exact ⟨a, rfl, h⟩

theorem exists_of_map_ok {ε α β : Type} {x : Except ε α} {f : α → β} {b : β}
    (h : (f <$> x) = .ok b) : ∃ a, x = .ok a ∧ f a = b := by
  cases x with
  | error e => exact absurd h (by simp [Functor.map, Except.map])
  | ok a => exact ⟨a, rfl, by simpa [Functor.map, Except.map] using h⟩

/-! ## Arguments and mathematics -/

theorem reaches_of_startArgument? {kind : TokenKind} {c d : Cursor}
    (h : startArgument? kind c = some d) : c.Reaches d := by
  simp only [startArgument?] at h
  split at h
  · exact ⟨_, (Option.some.inj h).symm⟩
  · exact absurd h (by simp)

theorem reaches_skipOptionalArgument (c : Cursor) : c.Reaches (skipOptionalArgument c) := by
  unfold skipOptionalArgument
  split
  · next opened h =>
    split
    · exact (reaches_of_startArgument? h).trans (.advanceBy _ _)
    · exact .refl c
  · exact .refl c

theorem reaches_of_startGroup {owner : Marker} {flaw : Flaw} {c d : Cursor}
    (h : startGroup owner flaw c = .ok d) : c.Reaches d := by
  unfold startGroup at h
  split at h
  · next opened h' => exact Except.ok.inj h ▸ reaches_of_startArgument? h'
  · exact absurd h (by simp)

theorem reaches_of_readGroup {source : Source} {owner : Marker} {flaw : Flaw} {c : Cursor}
    {r : Text × Cursor} (h : readGroup source owner flaw c = .ok r) : c.Reaches r.2 := by
  obtain ⟨opened, h', h⟩ := exists_of_bind_ok h
  split at h
  · next text n _ =>
    cases Except.ok.inj h
    exact (reaches_of_startGroup h').trans (.advanceBy _ _)
  · exact absurd h (by simp [throw, throwThe, MonadExceptOf.throw])

theorem reaches_of_skipGroups {source : Source} {owner : Marker} {flaw : Flaw} {count : Nat}
    {c d : Cursor} (h : skipGroups source owner flaw count c = .ok d) : c.Reaches d := by
  induction count generalizing c with
  | zero => exact Except.ok.inj h ▸ .refl c
  | succ count ih =>
    obtain ⟨r, hr, h⟩ := exists_of_bind_ok h
    exact (reaches_of_readGroup hr).trans (ih h)

theorem reaches_of_skipCommand {source : Source} {count : Nat} {c d : Cursor}
    (h : skipCommand source count c = .ok d) : c.advance.Reaches d :=
  (reaches_skipOptionalArgument _).trans (reaches_of_skipGroups h)

theorem reaches_of_readMath {source : Source} {c : Cursor} {r : Text × Cursor}
    (h : readMath source c = .ok r) : c.advance.Reaches r.2 := by
  simp only [readMath] at h
  split at h
  · cases Except.ok.inj h
    exact .advanceBy _ _
  · exact absurd h (by simp)

theorem reaches_of_readInlineMath {source : Source} {c : Cursor} {r : List Inline × Cursor}
    (h : readInlineMath source c = .ok r) : c.advance.Reaches r.2 := by
  simp only [readInlineMath] at h
  split at h
  · obtain ⟨_, _, h⟩ := exists_of_bind_ok h
    cases Except.ok.inj h
    exact .advanceBy _ _
  · obtain ⟨_, h', h⟩ := exists_of_bind_ok h
    cases Except.ok.inj h
    exact reaches_of_readMath h'

namespace State

/-! ## Inline content -/

variable {ctx : Context} {s next : State} {i : OpenInline}

theorem cursor_of_openBrace {kept : Bool} (h : s.openBrace i kept = .ok next) :
    next.cursor = s.cursor.advance := by
  obtain ⟨_, _, h⟩ := exists_of_bind_ok h
  cases Except.ok.inj h
  rfl

theorem reaches_of_openKeptBraces (h : s.openKeptBraces i = .ok next) :
    s.cursor.Reaches next.cursor := by
  simp only [openKeptBraces] at h
  split at h
  · exact cursor_of_openBrace h ▸ .advance _
  · cases Except.ok.inj h
    exact .refl _

theorem reaches_of_openArgument {owner : Marker} {flaw : Flaw} {purpose : Purpose}
    (h : s.openArgument i owner flaw purpose = .ok next) : s.cursor.Reaches next.cursor := by
  obtain ⟨opened, hg, h⟩ := exists_of_bind_ok h
  obtain ⟨_, _, h⟩ := exists_of_bind_ok h
  cases Except.ok.inj h
  exact (reaches_of_startGroup hg).trans (.advance _)

theorem reaches_of_takeLink (h : s.takeLink ctx i = .ok next) :
    s.cursor.advance.Reaches next.cursor := by
  obtain ⟨_, hr, h⟩ := exists_of_bind_ok h
  exact (reaches_of_readGroup hr).trans (reaches_of_openArgument h)

theorem reaches_of_takeUrl (h : s.takeUrl ctx i = .ok next) :
    s.cursor.advance.Reaches next.cursor := by
  obtain ⟨_, hr, h⟩ := exists_of_bind_ok h
  cases Except.ok.inj h
  exact reaches_of_readGroup hr

theorem reaches_of_takeVerbatim (h : s.takeVerbatim i = .ok next) :
    s.cursor.advance.Reaches next.cursor := by
  simp only [takeVerbatim] at h
  split at h
  · cases Except.ok.inj h
    exact .advance _
  · exact absurd h (by simp)

theorem reaches_of_dropCommand {count : Nat} (h : s.dropCommand ctx i count = .ok next) :
    s.cursor.advance.Reaches next.cursor := by
  obtain ⟨_, hr, h⟩ := exists_of_bind_ok h
  cases Except.ok.inj h
  exact reaches_of_skipCommand hr

theorem reaches_of_takeCommand (h : s.takeCommand ctx i = .ok next) :
    s.cursor.advance.Reaches next.cursor := by
  simp only [takeCommand] at h
  split at h
  · exact absurd h (by simp)
  split at h
  · exact reaches_of_dropCommand h
  · exact reaches_of_openArgument h
  split at h
  · cases Except.ok.inj h
    exact .refl _
  split at h
  · exact reaches_of_takeLink h
  split at h
  · exact reaches_of_takeUrl h
  split at h
  · exact reaches_of_takeVerbatim h
  · exact reaches_of_openKeptBraces h

theorem reaches_takeComment (s : State) (i : OpenInline) :
    s.cursor.advance.Reaches (s.takeComment i).cursor := by
  simp only [takeComment]
  split
  · exact .refl _
  · split
    · exact .advance _
    · exact .refl _

theorem reaches_takeLineBreak (s : State) (i : OpenInline) :
    s.cursor.advance.Reaches (s.takeLineBreak i).cursor := by
  simp only [takeLineBreak, gather]
  split
  · exact reaches_skipOptionalArgument _
  · exact .refl _

theorem reaches_of_takeMath (h : s.takeMath ctx i = .ok next) :
    s.cursor.advance.Reaches next.cursor := by
  simp only [takeMath] at h
  split at h
  · cases Except.ok.inj h
    exact .refl _
  · obtain ⟨_, hr, h⟩ := exists_of_bind_ok h
    cases Except.ok.inj h
    exact reaches_of_readInlineMath hr

/-- Reading a token passes it. -/
theorem passes_of_takeToken (h : s.takeToken ctx i = .ok next) :
    s.cursor.Passes next.cursor := by
  unfold takeToken at h
  cases hk : s.cursor.current.kind <;> simp only [Cursor.marker, hk] at h
  -- These cannot stand in inline content that they do not end.
  case endOfFile | envEnd | envBegin | groupClose => exact absurd h (by simp)
  all_goals refine ⟨by simp [hk], ?_⟩
  case groupOpen => exact cursor_of_openBrace h ▸ .refl _
  case mathInline | mathDisplay => exact reaches_of_takeMath h
  case command => exact reaches_of_takeCommand h
  all_goals cases Except.ok.inj h
  case comment => exact reaches_takeComment s i
  case lineBreak => exact reaches_takeLineBreak s i
  case text | rawText =>
    simp only [takeText, gather]
    split <;> exact .refl _
  all_goals exact .refl _

/-! ## Closing -/

@[simp] theorem cursor_addBlocks (s : State) (bs : List Block) :
    (s.addBlocks bs).cursor = s.cursor := by
  unfold addBlocks
  split <;> rfl

@[simp] theorem inline?_addBlocks (s : State) (bs : List Block) :
    (s.addBlocks bs).inline? = s.inline? := by
  unfold addBlocks
  split <;> rfl

@[simp] theorem cursor_finishItem (s : State) (e : OpenEnvironment) (l : OpenList) :
    (s.finishItem e l).1.cursor = s.cursor := by
  simp only [finishItem]
  split
  · rfl
  · split <;> rfl

@[simp] theorem cursor_warnRagged (s : State) (environment : Text) (columns : Nat)
    (rows : List TableRow) : (s.warnRagged environment columns rows).cursor = s.cursor := by
  unfold warnRagged
  induction rows generalizing s with
  | nil => rfl
  | cons r rest ih =>
    rw [List.foldl_cons, ih]
    split <;> rfl

theorem reaches_of_beginSpanningCell {table : OpenTable}
    (h : s.beginSpanningCell ctx table = .ok next) : s.cursor.Reaches next.cursor := by
  obtain ⟨_, hc, h⟩ := exists_of_bind_ok h
  obtain ⟨_, hw, h⟩ := exists_of_bind_ok h
  exact (((Reaches.advance _).trans (reaches_of_readGroup hc)).trans
    (reaches_of_readGroup hw)).trans (reaches_of_openArgument h)

theorem reaches_of_beginCell {table : OpenTable} (h : s.beginCell ctx table = .ok next) :
    s.cursor.Reaches next.cursor := by
  simp only [beginCell] at h
  split at h
  · exact (Reaches.advanceBy _ _).trans (reaches_of_beginSpanningCell h)
  · cases Except.ok.inj h
    exact .advanceBy _ _

theorem reaches_of_nextRow {table : OpenTable} (h : s.nextRow ctx table = .ok next) :
    s.cursor.advance.Reaches next.cursor := by
  simp only [nextRow, beginRow] at h
  refine Reaches.trans ?_ (reaches_of_beginCell h)
  show s.cursor.advance.Reaches (if _ then _ else _)
  split
  · exact reaches_skipOptionalArgument _
  · exact .refl _

theorem passes_of_expectEnd {c d : Cursor} {begun : Marker} (h : expectEnd c begun = .ok d) :
    c.Passes d := by
  simp only [expectEnd] at h
  split at h
  · exact absurd h (by simp)
  · next hk =>
    split at h
    · exact ⟨hk, Except.ok.inj h ▸ .refl _⟩
    · exact absurd h (by simp)

theorem passes_of_closeTable {table : OpenTable} (h : s.closeTable table = .ok next) :
    s.cursor.Passes next.cursor := by
  obtain ⟨_, he, h⟩ := exists_of_bind_ok h
  cases Except.ok.inj h
  simpa using passes_of_expectEnd he

theorem passes_of_closeCell {table : OpenTable} {content : Fragments}
    (h : s.closeCell ctx table content = .ok next) : s.cursor.Passes next.cursor := by
  simp only [closeCell] at h
  split at h
  · next hk => exact ⟨by simp [hk], reaches_of_beginCell h⟩
  · next hk => exact ⟨by simp [hk], reaches_of_nextRow h⟩
  · exact passes_of_closeTable h

/-- Closing something of inline content passes its closing token; only a paragraph is closed
without. -/
theorem progress_of_closeInline (hs : i.surround.endsAt s.inList s.cursor.current = true)
    (h : s.closeInline ctx i = .ok next) :
    s.cursor.Passes next.cursor ∨ (next.cursor = s.cursor ∧ next.inline? = none) := by
  simp only [closeInline] at h
  cases hb : i.run.braces with
  | cons brace braces =>
    -- Braces of no command end at a closing brace.
    left
    have hk : s.cursor.current.kind = .groupClose := by
      simpa [OpenInline.surround, hb, Surround.endsAt] using hs
    rw [hb] at h
    refine ⟨by simp [hk], ?_⟩
    simp only at h
    split at h
    · exact reaches_of_openKeptBraces h
    · cases Except.ok.inj h
      exact .refl _
  | nil =>
    cases ha : i.arguments with
    | cons argument arguments =>
      -- So does an argument.
      left
      have hk : s.cursor.current.kind = .groupClose := by
        simpa [OpenInline.surround, hb, ha, Surround.endsAt] using hs
      rw [hb, ha] at h
      cases Except.ok.inj h
      exact ⟨by simp [hk], .refl _⟩
    | nil =>
      rw [hb, ha] at h
      cases hl : i.line with
      | paragraph start =>
        -- The token that ends a paragraph is left to whatever comes next.
        right
        rw [hl] at h
        cases Except.ok.inj h
        simp only [closeParagraph]
        split <;> simp
      | heading command level opener =>
        left
        have hk : s.cursor.current.kind = .groupClose := by
          simpa [OpenInline.surround, hb, ha, hl, Surround.endsAt] using hs
        rw [hl] at h
        cases Except.ok.inj h
        refine ⟨by simp [hk], ?_⟩
        simp only [closeHeading]
        split <;> simp [warnAt, warn, Reaches.refl]
      | label item opener =>
        left
        have hk : s.cursor.current.kind = .bracketClose := by
          simpa [OpenInline.surround, hb, ha, hl, Surround.endsAt] using hs
        rw [hl] at h
        cases Except.ok.inj h
        refine ⟨by simp [hk], ?_⟩
        simp only [closeLabel]
        split <;> exact .refl _
      | cell table =>
        left
        rw [hl] at h
        exact passes_of_closeCell h

theorem reaches_closeEnvironment (s : State) (e : OpenEnvironment)
    (outer : List OpenEnvironment) :
    s.cursor.advance.Reaches (s.closeEnvironment e outer).cursor := by
  simp only [closeEnvironment]
  split <;> simp [Reaches.refl]

/-! ## Opening -/

theorem reaches_of_beginHeading {level : Nat} (h : s.beginHeading level = .ok next) :
    s.cursor.advance.Reaches next.cursor := by
  obtain ⟨_, hg, h⟩ := exists_of_bind_ok h
  obtain ⟨_, _, h⟩ := exists_of_bind_ok h
  cases Except.ok.inj h
  exact ((reaches_skipOptionalArgument _).trans (reaches_of_startGroup hg)).trans (.advance _)

theorem reaches_body (c : Cursor) :
    c.Reaches (if c.current.kind = .rawText then c.advance else c) := by
  split
  · exact .advance c
  · exact .refl c

theorem reaches_of_takeCode {c : Cursor} {begun : Marker} (h : s.takeCode c begun = .ok next) :
    c.Reaches next.cursor := by
  obtain ⟨_, he, h⟩ := exists_of_bind_ok h
  cases Except.ok.inj h
  simpa using (reaches_body c).trans (passes_of_expectEnd he).reaches

theorem reaches_of_skipComment {c : Cursor} {begun : Marker}
    (h : s.skipComment c begun = .ok next) : c.Reaches next.cursor := by
  obtain ⟨_, he, h⟩ := exists_of_bind_ok h
  cases Except.ok.inj h
  exact (reaches_body c).trans (passes_of_expectEnd he).reaches

theorem reaches_of_takeMathEnvironment {c : Cursor} {begun : Marker} {aligned : Bool}
    (h : s.takeMathEnvironment ctx c begun aligned = .ok next) : c.Reaches next.cursor := by
  simp only [takeMathEnvironment] at h
  split at h
  · cases Except.ok.inj h
    simpa using Reaches.advanceBy c _
  · exact absurd h (by simp)

theorem reaches_of_skipArguments {c d : Cursor} {begun : Marker}
    (h : skipArguments ctx c begun = .ok d) : c.Reaches d :=
  (reaches_skipOptionalArgument c).trans (reaches_of_skipGroups h)

theorem reaches_of_beginTable {c : Cursor} {begun : Marker}
    (h : s.beginTable ctx c begun = .ok next) : c.Reaches next.cursor := by
  obtain ⟨_, ha, h⟩ := exists_of_bind_ok h
  exact (reaches_of_skipArguments ha).trans (reaches_of_beginCell h)

theorem reaches_of_beginInPlace {c : Cursor} {begun : Marker}
    (h : s.beginInPlace ctx c begun = .ok next) : c.Reaches next.cursor := by
  obtain ⟨_, ha, h⟩ := exists_of_bind_ok h
  cases Except.ok.inj h
  exact reaches_of_skipArguments ha

theorem reaches_of_beginEnvironment (h : s.beginEnvironment ctx = .ok next) :
    s.cursor.advance.Reaches next.cursor := by
  obtain ⟨_, _, h⟩ := exists_of_bind_ok h
  split at h
  case h_1 | h_2 =>
    cases Except.ok.inj h
    exact Cursor.reaches_skipSpacing _
  case h_3 => exact reaches_of_beginTable h
  case h_4 =>
    cases Except.ok.inj h
    exact reaches_skipOptionalArgument _
  case h_5 => exact reaches_of_takeCode h
  case h_6 => exact reaches_of_skipComment h
  case h_7 =>
    cases Except.ok.inj h
    exact .refl _
  case h_8 | h_9 => exact reaches_of_takeMathEnvironment h
  case h_10 => exact reaches_of_beginInPlace h
  case h_11 => exact reaches_of_beginInPlace h

theorem reaches_of_takeDisplayMath (h : s.takeDisplayMath ctx = .ok next) :
    s.cursor.advance.Reaches next.cursor := by
  obtain ⟨_, hm, h⟩ := exists_of_bind_ok h
  cases Except.ok.inj h
  split
  · exact reaches_of_readMath hm
  · simpa using reaches_of_readMath hm

/-! ## Paragraphs

A paragraph that its first token ends passes nothing, and reading comes back to the same token.
Between blocks that token is never one that ends a paragraph: whatever does so was taken for a block,
for an item or for an end before. -/

theorem endsAt_paragraph_mathDisplay {t : Token} (hk : t.kind = .mathDisplay) (inList : Bool) :
    Surround.paragraph.endsAt inList t = opensDisplay t := by
  simp only [Surround.endsAt, hk]

theorem endsAt_paragraph_command {t : Token} (hk : t.kind = .command) {inList : Bool}
    (hheading : headingLevel? t.text = none) (hitem : inList = true → t.text ≠ "item") :
    Surround.paragraph.endsAt inList t = false := by
  simp only [Surround.endsAt, hk, hheading]
  cases inList with
  | false => rfl
  | true => simpa using hitem rfl

theorem endsAt_paragraph_other {t : Token} (inList : Bool) (heof : t.kind ≠ .endOfFile)
    (hend : t.kind ≠ .envEnd) (hbegin : t.kind ≠ .envBegin) (hmath : t.kind ≠ .mathDisplay)
    (hcommand : t.kind ≠ .command) (hspacing : t.isSpacing = false) :
    Surround.paragraph.endsAt inList t = false := by
  cases hk : t.kind <;> simp_all [Surround.endsAt, Token.isSpacing]

/-- A paragraph that its first token does not end reads that token. -/
theorem beginParagraph_of_not_endsAt
    (hends : Surround.paragraph.endsAt s.inList s.cursor.current = false) :
    s.beginParagraph ctx =
      takeToken ctx { s with inline? := some { line := .paragraph s.cursor.current.start } }
        { line := .paragraph s.cursor.current.start } :=
  if_neg (by
    show ¬ Surround.paragraph.endsAt s.inList s.cursor.current = true
    rw [hends]
    decide)

/-- One that it does end is dropped. -/
theorem beginParagraph_of_endsAt
    (hends : Surround.paragraph.endsAt s.inList s.cursor.current = true) :
    s.beginParagraph ctx = .ok { s with inline? := none } :=
  if_pos (show Surround.paragraph.endsAt s.inList s.cursor.current = true from hends)

theorem passes_of_beginParagraph
    (hends : Surround.paragraph.endsAt s.inList s.cursor.current = false)
    (h : s.beginParagraph ctx = .ok next) : s.cursor.Passes next.cursor := by
  rw [beginParagraph_of_not_endsAt hends] at h
  have hp := passes_of_takeToken h
  exact hp

theorem passes_of_takeOtherCommand (hk : s.cursor.current.kind = .command)
    (hitem : s.inList = true → s.cursor.current.text ≠ "item")
    (h : s.takeOtherCommand ctx = .ok next) : s.cursor.Passes next.cursor := by
  have heof : s.cursor.current.kind ≠ .endOfFile := by simp [hk]
  simp only [takeOtherCommand] at h
  split at h
  · exact ⟨heof, reaches_of_beginHeading h⟩
  · obtain ⟨_, hc, h⟩ := exists_of_bind_ok h
    cases Except.ok.inj h
    exact ⟨heof, reaches_of_skipCommand hc⟩
  · next hheading _ =>
    exact passes_of_beginParagraph (endsAt_paragraph_command hk hheading hitem) h

theorem reaches_of_beginLabel {marker : Marker} (h : s.beginLabel marker = .ok next) :
    s.cursor.Reaches next.cursor := by
  simp only [beginLabel] at h
  split at h
  · next opened ho =>
    obtain ⟨_, _, h⟩ := exists_of_bind_ok h
    cases Except.ok.inj h
    exact (reaches_of_startArgument? ho).trans (.advance _)
  · cases Except.ok.inj h
    exact .refl _

theorem reaches_of_beginItem {e : OpenEnvironment} {outer : List OpenEnvironment} {l : OpenList}
    (h : s.beginItem e outer l = .ok next) : s.cursor.advance.Reaches next.cursor := by
  simp only [beginItem] at h
  have hr := reaches_of_beginLabel h
  simpa only [cursor_finishItem] using hr

theorem passes_of_takeBlockCommand (hk : s.cursor.current.kind = .command)
    (h : s.takeBlockCommand ctx = .ok next) : s.cursor.Passes next.cursor := by
  unfold takeBlockCommand at h
  split at h
  · split at h
    · exact ⟨by simp [hk], reaches_of_beginItem h⟩
    · next hitem => exact passes_of_takeOtherCommand hk (fun _ => hitem) h
  · next hlist =>
    apply passes_of_takeOtherCommand hk ?_ h
    intro hin
    -- The innermost environment is no list here.
    cases he : s.environments with
    | nil => simp [inList, he] at hin
    | cons e outer =>
      obtain ⟨marker, role, blocks⟩ := e
      cases role with
      | list l => exact absurd he (hlist marker l blocks outer)
      | inPlace | float | quote => simp [inList, he, Role.isList] at hin

theorem passes_of_beginBlock (heof : s.cursor.current.kind ≠ .endOfFile)
    (hend : s.cursor.current.kind ≠ .envEnd) (hspacing : s.cursor.current.isSpacing = false)
    (h : s.beginBlock ctx = .ok next) : s.cursor.Passes next.cursor := by
  simp only [beginBlock] at h
  split at h
  · exact ⟨heof, reaches_of_beginEnvironment h⟩
  · next hk =>
    split at h
    · exact ⟨heof, reaches_of_takeDisplayMath h⟩
    · next hopens =>
      have hends : Surround.paragraph.endsAt s.inList s.cursor.current = false := by
        rw [endsAt_paragraph_mathDisplay hk]
        simpa using hopens
      exact passes_of_beginParagraph hends h
  · next hk => exact passes_of_takeBlockCommand hk h
  · next hbegin hmath hcommand =>
    exact passes_of_beginParagraph
      (endsAt_paragraph_other _ heof hend hbegin hmath hcommand hspacing) h

theorem passes_of_endEnvironment (hk : s.cursor.current.kind ≠ .endOfFile)
    (h : s.endEnvironment = .ok next) : s.cursor.Passes next.cursor := by
  simp only [endEnvironment] at h
  split at h
  · exact absurd h (by simp)
  · split at h
    · cases Except.ok.inj h
      exact ⟨hk, reaches_closeEnvironment _ _ _⟩
    · exact absurd h (by simp)

/-! ## Steps -/

/-- A step that goes on passes tokens, spacing first perhaps, or ends a paragraph and passes
none. -/
def Progress (s next : State) : Prop :=
  (∃ c, s.cursor.Reaches c ∧ c.Passes next.cursor) ∨
    (next.cursor = s.cursor ∧ s.inline?.isSome = true ∧ next.inline? = none)

theorem progress_of_takeBlock (ht : s.cursor.Terminated)
    (h : s.takeBlock ctx = .ok (some next)) : Progress s next := by
  simp only [takeBlock] at h
  refine .inl ⟨s.cursor.skipSpacing, Cursor.reaches_skipSpacing _, ?_⟩
  split at h
  · obtain ⟨_, _, h⟩ := exists_of_map_ok h
    exact absurd h (by simp)
  · next hk =>
    obtain ⟨_, he, h⟩ := exists_of_map_ok h
    cases Option.some.inj h
    exact passes_of_endEnvironment (by simp [hk]) he
  · next heof hend =>
    obtain ⟨_, hb, h⟩ := exists_of_map_ok h
    cases Option.some.inj h
    exact passes_of_beginBlock heof hend (Cursor.isSpacing_current_skipSpacing ht) hb

/-- So does a step inside inline content. -/
theorem progress_of_takeInline (hi : s.inline? = some i) (h : s.takeInline ctx i = .ok next) :
    Progress s next := by
  unfold takeInline at h
  split at h
  · next hends =>
    rcases progress_of_closeInline hends h with hp | ⟨hc, hn⟩
    · exact .inl ⟨_, .refl _, hp⟩
    · exact .inr ⟨hc, by simp [hi], hn⟩
  · exact .inl ⟨_, .refl _, passes_of_takeToken h⟩

/-- Every step that goes on gets on. -/
theorem step_progress (ht : s.cursor.Terminated) (h : s.step ctx = .ok (some next)) :
    Progress s next := by
  unfold step at h
  split at h
  · exact progress_of_takeBlock ht h
  · next i hi =>
    obtain ⟨_, h, hnext⟩ := exists_of_map_ok h
    cases Option.some.inj hnext
    exact progress_of_takeInline hi h

/-- Twice the tokens left, and one for open inline content. -/
def weight (s : State) : Nat := 2 * s.cursor.ahead.length + s.inline?.isSome.toNat

theorem Progress.reaches (h : Progress s next) : s.cursor.Reaches next.cursor := by
  rcases h with ⟨c, hc, hp⟩ | ⟨hc, _⟩
  · exact hc.trans hp.reaches
  · exact hc ▸ .refl _

theorem Progress.terminated (h : Progress s next) (ht : s.cursor.Terminated) :
    next.cursor.Terminated := h.reaches.terminated ht

/-- Progress makes the weight smaller. -/
theorem Progress.weight_lt (h : Progress s next) (ht : s.cursor.Terminated) :
    next.weight < s.weight := by
  rcases h with ⟨c, hc, hp⟩ | ⟨hc, hs, hn⟩
  -- A token passed counts for two, so that inline content may be opened on the way.
  · have hlt := hp.of_reaches hc ht
    have hle : next.inline?.isSome.toNat ≤ 1 := Bool.toNat_le _
    simp only [weight]
    omega
  · simp [weight, hc, hs, hn]

end State

end Parse

end LatexMarkdown
