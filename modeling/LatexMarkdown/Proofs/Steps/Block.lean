import LatexMarkdown.Proofs.Steps.Inline
/-!
  Reading blocks, and closing what is open, as changes.

  One lemma for each reader, as for inline content.  Main statement: `State.yields_step`: a step that
  goes on is a few changes, and one that fails has a token or something open to blame.
-/
namespace LatexMarkdown.Parse.State

open Cursor (Reaches)

variable {ctx : Context} {s : State} {i : OpenInline}

/-! ## Tables -/

theorem marker_finishRow (s : State) (table : OpenTable) :
    (s.finishRow table).marker = table.marker := by
  simp only [finishRow]
  split <;> rfl

/-- A cell that was just begun: spacing is passed, and the argument of a spanning one is opened. -/
theorem yields_beginCell {start : State} {table : OpenTable}
    (h : Changes ctx start { s with
      inline? := some (openCell { table with cellStart := s.cursor.current.start, span := 1 }) }) :
    Yields (Changes ctx start) (Faults s.cursor) (s.beginCell ctx table) := by
  generalize hcell : ({ table with cellStart := s.cursor.current.start, span := 1 } : OpenTable)
    = cell at h
  generalize hc : s.cursor.advanceBy (s.cursor.countWhile isCellSpacing) = c
  have hreach : s.cursor.Reaches c := ⟨_, hc.symm⟩
  have hskip : Changes ctx start { s with cursor := c, inline? := some (openCell cell) } :=
    h.tail (.skip hreach)
  simp only [beginCell, hcell, hc]
  split
  · -- The count of columns and their layout are read; the content of the cell is an argument.
    next hcommand =>
    have hk : c.current.kind = .command := Token.kind_of_isCommand hcommand
    have hfault : Faults s.cursor ⟨missingArgument c.marker, c.marker⟩ :=
      .of_reaches hreach (.current (.missingArgument (.inl hk)))
    have hadvance := hreach.trans (.advance c)
    refine (yields_readGroup hfault hadvance).bind fun count _ hcount => ?_
    refine (yields_readGroup hfault (hadvance.trans hcount)).bind fun width _ hwidth => ?_
    have hargument := hcount.trans hwidth
    refine (yields_openArgument hfault (hadvance.trans hargument)).mono ?_ fun _ => id
    rintro next ⟨hd, opened, hopened, hgroup, rfl⟩
    exact hskip.tail (Change.openArgument (i := openCell cell) rfl hk (.inr ⟨cell, _, rfl, rfl⟩)
      (by simp [Purpose.command?]) (hargument.trans hopened) hgroup (by simp) hd)
  · exact hskip

/-- The end marker of an environment is passed, or it is missing, or it is another one. -/
theorem yields_expectEnd {c : Cursor} {begun : Marker} {bad : Failure → Prop}
    (hopen : bad ⟨.unclosedEnvironment begun.text, begun⟩)
    (hother : c.current.kind ≠ .endOfFile →
      ¬ (c.current.kind = .envEnd ∧ c.current.text = begun.text) →
      bad ⟨.mismatchedEnvironment c.current.text begun.text, c.marker⟩) :
    Yields (fun d => d = c.advance ∧ c.current.kind = .envEnd) bad (expectEnd c begun) := by
  simp only [expectEnd]
  split
  · exact hopen
  · next hne =>
    split
    · next hend => exact ⟨rfl, hend.1⟩
    · next hend => exact hother hne hend

/-- Ending a cell, at a token that ends one. -/
theorem yields_closeCell {table : OpenTable} (hi : s.inline? = some i) (ha : i.arguments = [])
    (hl : i.line = .cell table)
    (hend : Surround.endsAt s.inList s.cursor.current .cell = true) :
    Yields (Changes ctx s) (Fails s) (s.closeCell ctx table i.run.fragments) := by
  simp only [closeCell]
  split
  · -- A separator: the row goes on.
    next hk =>
    refine (yields_beginCell ?_).mono (fun _ => id) fun _ h => .fault (h.of_reaches (.advance _))
    exact .single (.nextCell hi hk ha hl)
  · -- A line break: the next row begins behind its optional argument.
    next hk =>
    simp only [nextRow, beginRow]
    generalize hc : (if s.cursor.advance.current.kind = .bracketOpen then
      skipOptionalArgument s.cursor.advance else s.cursor.advance) = c
    have hreach : s.cursor.advance.Reaches c := by
      rw [← hc]
      split
      · exact reaches_skipOptionalArgument _
      · exact .refl _
    refine (yields_beginCell ?_).mono (fun _ => id)
      fun _ h => .fault (h.of_reaches ((Reaches.advance _).trans hreach))
    exact .single (.nextRow hi hk ha hl hreach)
  · next htab hbreak =>
    have hmarker : (s.finishRow (s.finishCell table i.run.fragments)).marker = table.marker :=
      marker_finishRow _ _
    simp only [closeTable, hmarker]
    refine (yields_expectEnd (.table hi hl) fun hne _ => ?_).bind ?_
    · -- What ends a cell and is none of these ends an environment.
      have hk : s.cursor.current.kind = .envEnd := by
        simp only [Surround.endsAt, Bool.or_eq_true, beq_iff_eq] at hend
        exact ((hend.resolve_right htab).resolve_right hbreak).resolve_left hne
      exact .mismatched (.refl _) hk (.inr ⟨i, hi, table, hl, rfl⟩)
    · rintro _ - ⟨rfl, hk⟩
      exact .single (.closeTable hi hk ha hl rfl)

/-! ## Closing -/

/-- Ending the innermost thing that is inline content, at a token that ends it. -/
theorem yields_closeInline (hi : s.inline? = some i)
    (hend : i.surround.endsAt s.inList s.cursor.current = true) :
    Yields (Changes ctx s) (Fails s) (s.closeInline ctx i) := by
  simp only [closeInline]
  -- The innermost of what is open: braces, or else an argument, or else the line.
  cases hb : i.run.braces with
  | cons brace braces =>
    have hk : s.cursor.current.kind = .groupClose := by
      simpa [OpenInline.surround, hb, Surround.endsAt] using hend
    have hclose : Change ctx s _ := .closeBrace hi hk hb
    dsimp only
    split
    · next hkept =>
      rw [if_pos hkept] at hclose
      exact yields_openKeptBraces.mono (fun _ h => .head hclose h)
        fun _ h => .fault (h.of_reaches (.advance _))
    · next hkept =>
      rw [if_neg hkept] at hclose
      exact .single hclose
  | nil =>
    cases ha : i.arguments with
    | cons argument arguments =>
      have hk : s.cursor.current.kind = .groupClose := by
        simpa [OpenInline.surround, hb, ha, Surround.endsAt] using hend
      exact .single (.closeArgument hi hk ha)
    | nil =>
      cases hl : i.line with
      | paragraph start => exact .single (.closeParagraph hi ha hl)
      | heading command level opener =>
        have hk : s.cursor.current.kind = .groupClose := by
          simpa [OpenInline.surround, hb, ha, hl, Surround.endsAt] using hend
        exact .single (.closeHeading hi hk ha hl)
      | label item opener =>
        have hk : s.cursor.current.kind = .bracketClose := by
          simpa [OpenInline.surround, hb, ha, hl, Surround.endsAt] using hend
        exact .single (.closeLabel hi hk ha hl)
      | cell table =>
        refine yields_closeCell hi ha hl ?_
        simpa [OpenInline.surround, hb, ha, hl] using hend

/-! ## Opening -/

theorem yields_beginHeading {level : Nat} (hi : s.inline? = none)
    (hk : s.cursor.current.kind = .command)
    (hlevel : headingLevel? s.cursor.current.text = some level) :
    Yields (Changes ctx s) (Faults s.cursor) (s.beginHeading level) := by
  have hskip := reaches_skipOptionalArgument s.cursor.advance
  refine (yields_startGroup (.current (.missingArgument (.inl hk)))).bind fun c _ ⟨hc, ho⟩ => ?_
  have hreach := hskip.trans hc
  have hdeep : Faults s.cursor ⟨.nestingTooDeep nestingLimit, c.marker⟩ :=
    ⟨c, (Reaches.advance _).trans hreach, .nestingTooDeep (.inr (.inl ho))⟩
  exact (yields_checkDepth hdeep).bind fun _ _ hd =>
    .single (.beginHeading hi hk hreach ho hlevel hd)

theorem mem_of_lookup {α β : Type} [BEq α] [LawfulBEq α] {a : α} {b : β} {entries : List (α × β)}
    (h : entries.lookup a = some b) : (a, b) ∈ entries := by
  obtain ⟨before, after, rfl, -⟩ := List.lookup_eq_some_iff.mp h
  exact List.mem_append_right _ List.mem_cons_self

/-- The environments that the body of a raw environment is read for. -/
theorem mem_rawEnvironments_of_ofName? {name : Text} {kind : EnvironmentKind}
    (h : EnvironmentKind.ofName? name = some kind) (hk : kind = .codeBlock ∨ kind = .comment) :
    name ∈ rawEnvironments := by
  have hall : ∀ entry ∈ EnvironmentKind.environments,
      entry.2 = .codeBlock ∨ entry.2 = .comment → entry.1 ∈ rawEnvironments := by decide
  exact hall (name, kind) (mem_of_lookup h) hk

/-- The body of a raw environment is read for code or for a comment. -/
theorem ofName?_of_mem_rawEnvironments {name : Text} (h : name ∈ rawEnvironments) :
    EnvironmentKind.ofName? name = some .codeBlock ∨
      EnvironmentKind.ofName? name = some .comment := by
  have hall : ∀ name ∈ rawEnvironments, EnvironmentKind.ofName? name = some .codeBlock ∨
      EnvironmentKind.ofName? name = some .comment := by decide
  exact hall name h

/-- The end marker behind a raw body. -/
theorem yields_expectEnd_pastBody (hk : s.cursor.current.kind = .envBegin)
    (hraw : s.cursor.current.text ∈ rawEnvironments) :
    Yields (fun d => s.cursor.advance.Reaches d) (Faults s.cursor)
      (expectEnd (pastBody s.cursor.advance) s.cursor.marker) := by
  have hbody : s.cursor.advance.Reaches (pastBody s.cursor.advance) := by
    unfold pastBody
    exact reaches_body _
  refine (yields_expectEnd (.current (.unclosedEnvironment hk)) fun hne hother => ?_).mono ?_
    fun _ => id
  · exact .current (.mismatchedBody hk hraw hne hother)
  · rintro _ ⟨rfl, -⟩
    exact hbody.trans (.advance _)

theorem yields_takeCode (hi : s.inline? = none) (hk : s.cursor.current.kind = .envBegin)
    (hraw : s.cursor.current.text ∈ rawEnvironments) :
    Yields (Changes ctx s) (Faults s.cursor) (s.takeCode s.cursor.advance s.cursor.marker) := by
  have hend := yields_expectEnd_pastBody hk hraw
  simp only [takeCode]
  exact hend.bind fun c hc _ => .single (.addLeaf hi (.code hk hraw hc))

theorem yields_skipComment (hk : s.cursor.current.kind = .envBegin)
    (hraw : s.cursor.current.text ∈ rawEnvironments) :
    Yields (Changes ctx s) (Faults s.cursor) (s.skipComment s.cursor.advance s.cursor.marker) := by
  refine (yields_expectEnd_pastBody hk hraw).bind fun c _ hc => ?_
  exact .single (.skip ((Reaches.advance _).trans hc))

theorem yields_takeMathEnvironment {aligned : Bool} (hi : s.inline? = none)
    (hk : s.cursor.current.kind = .envBegin)
    (hname : EnvironmentKind.ofName? s.cursor.current.text
      = some (if aligned then .alignedMath else .mathBlock)) :
    Yields (Changes ctx s) (Faults s.cursor)
      (s.takeMathEnvironment ctx s.cursor.advance s.cursor.marker aligned) := by
  simp only [takeMathEnvironment]
  split
  · next hread => exact .single (.addLeaf hi (.environment aligned hk hread hname))
  · exact .current (.unclosedEnvironment hk)

theorem yields_skipArguments (hk : s.cursor.current.kind = .envBegin) :
    Yields (fun d => s.cursor.advance.Reaches d) (Faults s.cursor)
      (skipArguments ctx s.cursor.advance s.cursor.marker) := by
  have hskip := reaches_skipOptionalArgument s.cursor.advance
  exact (yields_skipGroups (.current (.missingArgument (.inr hk)))
    ((Reaches.advance _).trans hskip)).mono (fun d hd => hskip.trans hd) fun _ => id

theorem yields_beginTable (hi : s.inline? = none) (hk : s.cursor.current.kind = .envBegin)
    (hd : s.depth + 1 ≤ nestingLimit) (hraw : s.cursor.current.text ∉ rawEnvironments) :
    Yields (Changes ctx s) (Faults s.cursor)
      (s.beginTable ctx s.cursor.advance s.cursor.marker) := by
  refine (yields_skipArguments hk).bind fun c _ hc => ?_
  refine (yields_beginCell ?_).mono (fun _ => id)
    fun _ h => h.of_reaches ((Reaches.advance _).trans hc)
  exact .single (.beginTable hi hk hc hd hraw)

theorem yields_beginInPlace (hi : s.inline? = none) (hk : s.cursor.current.kind = .envBegin)
    (hd : s.depth + 1 ≤ nestingLimit) (hraw : s.cursor.current.text ∉ rawEnvironments) :
    Yields (Changes ctx s) (Faults s.cursor)
      (s.beginInPlace ctx s.cursor.advance s.cursor.marker) := by
  refine (yields_skipArguments hk).bind fun c _ hc => ?_
  exact .single (.beginEnvironment hi hk hc (by simp) hd hraw)

/-- A list begins with an item for what comes before its first item marker. -/
theorem changes_beginList (ordered : Bool) (hi : s.inline? = none)
    (hk : s.cursor.current.kind = .envBegin) (hd : s.depth + 1 ≤ nestingLimit)
    (hraw : s.cursor.current.text ∉ rawEnvironments) :
    Changes ctx s (s.beginList s.cursor.advance s.cursor.marker ordered) := by
  refine .single (.beginEnvironment hi hk (Cursor.reaches_skipSpacing _) (fun l hl => ?_) hd hraw)
  cases hl
  exact ⟨rfl, rfl⟩

theorem yields_beginEnvironment (hi : s.inline? = none)
    (hk : s.cursor.current.kind = .envBegin) :
    Yields (Changes ctx s) (Faults s.cursor) (s.beginEnvironment ctx) := by
  refine (yields_checkDepth (.current (.nestingTooDeep (.inl hk)))).bind fun _ _ hd => ?_
  -- What is opened here is read raw only as code or as a comment.
  have hopen : ∀ kind?, EnvironmentKind.ofName? s.cursor.current.text = kind? →
      kind? ≠ some .codeBlock → kind? ≠ some .comment → s.cursor.current.text ∉ rawEnvironments := by
    rintro _ rfl hcode hcomment hraw
    exact (ofName?_of_mem_rawEnvironments hraw).elim hcode hcomment
  split
  case h_1 _ hn => exact changes_beginList false hi hk hd (hopen _ hn (by simp) (by simp))
  case h_2 _ hn => exact changes_beginList true hi hk hd (hopen _ hn (by simp) (by simp))
  case h_3 _ hn => exact yields_beginTable hi hk hd (hopen _ hn (by simp) (by simp))
  case h_4 _ hn =>
    exact .single (.beginEnvironment hi hk (reaches_skipOptionalArgument _) (by simp) hd
      (hopen _ hn (by simp) (by simp)))
  case h_5 _ hn => exact yields_takeCode hi hk (mem_rawEnvironments_of_ofName? hn (.inl rfl))
  case h_6 _ hn => exact yields_skipComment hk (mem_rawEnvironments_of_ofName? hn (.inr rfl))
  case h_7 _ hn =>
    exact .single (.beginEnvironment hi hk (.refl _) (by simp) hd (hopen _ hn (by simp) (by simp)))
  case h_8 _ hn | h_9 _ hn => exact yields_takeMathEnvironment hi hk hn
  case h_10 _ hn => exact yields_beginInPlace hi hk hd (hopen _ hn (by simp) (by simp))
  case h_11 _ hn =>
    -- An environment that is not known is reported first.
    exact (yields_beginInPlace (s := s.warnAt _ s.cursor.current) hi hk hd
      (hopen _ hn (by simp) (by simp))).mono
        (fun _ h => .head (.warn _ (by simp [Degradation.category])) h) fun _ => id

theorem yields_takeDisplayMath (hi : s.inline? = none)
    (hk : s.cursor.current.kind = .mathDisplay) (hopens : opensDisplay s.cursor.current = true) :
    Yields (Changes ctx s) (Faults s.cursor) (s.takeDisplayMath ctx) := by
  refine (yields_readMath (.inr hk)).bind fun r hread hr => ?_
  show Changes ctx s (if r.1 = [] then _ else _)
  split
  · exact .single (.skip ((Reaches.advance _).trans hr))
  · next hne => exact .single (.addLeaf hi (.display hk hread hne hopens))

theorem yields_beginParagraph (hi : s.inline? = none)
    (heof : s.cursor.current.kind ≠ .endOfFile) (hend : s.cursor.current.kind ≠ .envEnd) :
    Yields (Changes ctx s) (Faults s.cursor) (s.beginParagraph ctx) := by
  cases hends : Surround.paragraph.endsAt s.inList s.cursor.current with
  | true =>
    have hsame : ({ s with inline? := none } : State) = s := by rw [← hi]
    rw [beginParagraph_of_endsAt hends, hsame]
    exact .refl
  | false =>
    -- The token that the paragraph begins with is the first one read in it.
    have hopen : Change ctx s _ := .beginParagraph hi
    rw [beginParagraph_of_not_endsAt hends]
    exact (yields_takeToken (s := { s with inline? := some _ }) rfl heof hend).mono
      (fun _ h => .head hopen h) fun _ => id

theorem yields_takeOtherCommand (hi : s.inline? = none)
    (hk : s.cursor.current.kind = .command) :
    Yields (Changes ctx s) (Faults s.cursor) (s.takeOtherCommand ctx) := by
  simp only [takeOtherCommand]
  split
  · next hlevel => exact yields_beginHeading hi hk hlevel
  · refine (yields_skipCommand hk).bind fun c _ hc => ?_
    exact .single (.skip ((Reaches.advance _).trans hc))
  · exact yields_beginParagraph hi (by simp [hk]) (by simp [hk])

/-- The label of an item just begun. -/
theorem yields_beginLabel {e : OpenEnvironment} {outer : List OpenEnvironment} {l : OpenList}
    {item : Marker} {c : Cursor} (hi : s.inline? = none) (he : s.environments = e :: outer)
    (hl : e.role = .list l) (hb : e.blocks = [])
    (hdeep : Faults c ⟨.nestingTooDeep nestingLimit, item⟩) :
    Yields (Changes ctx s) (Faults c) (s.beginLabel item) := by
  simp only [beginLabel]
  split
  · next opened ho =>
    refine (yields_checkDepth hdeep).bind fun _ _ hd => ?_
    exact .single (.beginLabel hi he hl hb (reaches_of_startArgument? ho)
      (kind_of_startArgument? ho) hd)
  · exact .refl

theorem yields_beginItem {e : OpenEnvironment} {outer : List OpenEnvironment} {l : OpenList}
    (hi : s.inline? = none) (hk : s.cursor.current.isCommand "item" = true)
    (he : s.environments = e :: outer) (hl : e.role = .list l) :
    Yields (Changes ctx s) (Faults s.cursor) (s.beginItem e outer l) := by
  have hcommand : s.cursor.current.kind = .command := Token.kind_of_isCommand hk
  -- The item is begun before its label is looked for.
  have hitem : Change ctx s _ := .beginItem hi hcommand he hl
  simp only [beginItem, cursor_finishItem]
  refine (yields_beginLabel ?_ rfl rfl rfl ?_).mono (fun _ h => .head hitem h) fun _ => id
  · exact (inline?_finishItem s e l).trans hi
  · exact .current (.nestingTooDeep (.inr (.inr hk)))

theorem yields_takeBlockCommand (hi : s.inline? = none)
    (hk : s.cursor.current.kind = .command) :
    Yields (Changes ctx s) (Faults s.cursor) (s.takeBlockCommand ctx) := by
  unfold takeBlockCommand
  split
  · next marker l blocks outer he =>
    split
    · next hitem => exact yields_beginItem hi (by simp [Token.isCommand, hk, hitem]) he rfl
    · exact yields_takeOtherCommand hi hk
  · exact yields_takeOtherCommand hi hk

theorem yields_beginBlock (hi : s.inline? = none) (heof : s.cursor.current.kind ≠ .endOfFile)
    (hend : s.cursor.current.kind ≠ .envEnd) :
    Yields (Changes ctx s) (Faults s.cursor) (s.beginBlock ctx) := by
  simp only [beginBlock]
  split
  · next hk => exact yields_beginEnvironment hi hk
  · next hk =>
    split
    · next hopens => exact yields_takeDisplayMath hi hk hopens
    · exact yields_beginParagraph hi heof hend
  · next hk => exact yields_takeBlockCommand hi hk
  · exact yields_beginParagraph hi heof hend

/-! ## Steps -/

theorem yields_endEnvironment (hi : s.inline? = none) (hk : s.cursor.current.kind = .envEnd) :
    Yields (Changes ctx s) (Fails s) s.endEnvironment := by
  simp only [endEnvironment]
  split
  · exact .fault (.current (.unexpectedEnvironmentEnd hk))
  · next e outer he =>
    split
    · exact .single (.closeEnvironment hi hk he)
    · exact .mismatched (.refl _) hk (.inl (List.mem_map_of_mem (he ▸ List.mem_cons_self)))

/-- A step between blocks passes the spacing first. -/
theorem yields_takeBlock (hi : s.inline? = none) :
    Yields (Stepped ctx s) (Fails s) (s.takeBlock ctx) := by
  generalize hc : s.cursor.skipSpacing = c
  have hreach : s.cursor.Reaches c := hc ▸ Cursor.reaches_skipSpacing _
  have hskip : Changes ctx s { s with cursor := c } := .single (.skip hreach)
  have hfault : ∀ f, Faults c f → Fails s f := fun f h => .fault (h.of_reaches hreach)
  simp only [takeBlock, hc]
  split
  · refine .map ?_
    simp only [endDocument]
    split
    · next he => exact ⟨hi, he⟩
    · next e outer he => exact .environment (he ▸ List.mem_cons_self)
  · next hk =>
    have hclosed : Yields (Changes ctx { s with cursor := c }) _ _ := yields_endEnvironment hi hk
    exact .map (hclosed.mono (fun _ h => hskip.trans h) fun _ h => h.of_reaches hreach)
  · next heof hend =>
    have hbegun : Yields (Changes ctx { s with cursor := c }) _ _ := yields_beginBlock hi heof hend
    exact .map (hbegun.mono (fun _ h => hskip.trans h) hfault)

/-- Inline content that a token does not end reads it.  At the end of an environment or of the
document only a group or a label is still open. -/
theorem yields_takeToken_of_not_ends (hi : s.inline? = some i)
    (hends : ¬ i.surround.endsAt s.inList s.cursor.current = true) :
    Yields (Changes ctx s) (Fails s) (s.takeToken ctx i) := by
  by_cases hk : s.cursor.current.kind = .endOfFile ∨ s.cursor.current.kind = .envEnd
  · have hopen : s.takeToken ctx i = .error
        ⟨.unclosedGroup (i.surround.opener s.cursor.marker).text,
          i.surround.opener s.cursor.marker⟩ := by
      rcases hk with hk | hk <;> simp only [takeToken, Cursor.marker, hk]
    rw [hopen]
    cases hs : i.surround with
    | group opener => exact .group hi (.inl hs)
    | label opener => exact .group hi (.inr hs)
    | paragraph | cell =>
      -- These would have ended here.
      rw [hs] at hends
      rcases hk with hk | hk <;> simp [Surround.endsAt, hk] at hends
  · rw [not_or] at hk
    exact (yields_takeToken hi hk.1 hk.2).mono (fun _ => id) fun _ => .fault

/-- A step that goes on is a few changes, and one that fails has a token or something open to
blame. -/
theorem yields_step (ctx : Context) (s : State) :
    Yields (Stepped ctx s) (Fails s) (s.step ctx) := by
  unfold step
  split
  · next hi => exact yields_takeBlock hi
  · next i hi =>
    unfold takeInline
    split
    · next hends => exact .map (yields_closeInline hi hends)
    · next hends => exact .map (yields_takeToken_of_not_ends hi hends)

end LatexMarkdown.Parse.State
