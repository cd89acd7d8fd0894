import LatexMarkdown.Proofs.Spans.State
/-!
  Every change keeps the source order.

  One lemma for each change that closes something, which is where nodes get their spans; opening and
  moving on are short.  Main statement: `InSourceOrder.change`.
-/
namespace LatexMarkdown.Parse

open Cursor (Reaches)

variable {source : Text} {keep : Bool} {ctx : Context} {s t : State} {i : OpenInline}

namespace InSourceOrder

/-- What is gathered in the open run. -/
theorem content (h : InSourceOrder source keep s) (hi : s.inline? = some i) :
    InlineLaid source keep s.cursor s.environments i := h.inline i hi

/-! ## Paragraphs and headings -/

/-- A paragraph with content begins where its line does. -/
theorem closeParagraph {start : Nat} (h : InSourceOrder source keep s) (hi : s.inline? = some i)
    (ha : i.arguments = []) (hl : i.line = .paragraph start) :
    InSourceOrder source keep (s.closeParagraph start i.run.fragments) := by
  have hcontent := (h.content hi).content
  rw [ha, hl] at hcontent
  have hnext : s.nextStart = start := by rw [State.nextStart_of_some hi, hl]; rfl
  simp only [State.closeParagraph]
  split
  · -- Nothing was gathered, so the next block begins at the current token again.
    obtain ⟨hi', hle, -, hst⟩ := h.stacked
    exact .of_none h.tiled h.reported rfl (hst.mono hle h.nextStart_le)
  · next hne =>
    have hfinish := hcontent.finish
    have hle : start ≤ s.cursor.lastStop := hfinish.le (by simpa using hne)
    exact h.addBlock (t := { s with inline? := none }) hnext rfl rfl rfl (.refl _) h.reported rfl rfl
      hle hfinish

theorem closeHeading {command opener : Marker} {level : Nat} (h : InSourceOrder source keep s)
    (hi : s.inline? = some i) (hk : s.cursor.current.kind = .groupClose) (ha : i.arguments = [])
    (hl : i.line = .heading command level opener) :
    InSourceOrder source keep (s.closeHeading ctx command level i.run.fragments) := by
  obtain ⟨hline, -, hle, hcontent⟩ := h.content hi
  rw [ha, hl] at hcontent hle
  rw [hl] at hline
  have hne : s.cursor.current.kind ≠ .endOfFile := by simp [hk]
  have hnext : s.nextStart = command.token.start := by rw [State.nextStart_of_some hi, hl]; rfl
  have hpast := h.tiled.lastStop_le_lastStop (.advance _)
  have hspan : command.token.start ≤ s.cursor.advance.lastStop :=
    Nat.le_trans hle (h.tiled.start_le_lastStop hne (.refl _))
  have hadded : ∀ (flags : NodeFlags) (level : Number), InSourceOrder source keep
      (({ s with cursor := s.cursor.advance, inline? := none } : State).addBlocks
        [.heading { NodeInfo.span command.token.start s.cursor.advance.lastStop with flags } level
          i.run.fragments.finish]) := by
    intro flags level
    exact h.addBlock (t := { s with cursor := s.cursor.advance, inline? := none }) hnext rfl rfl rfl
      (.advance _) h.reported rfl rfl hspan (hcontent.mono_right hpast).finish
  simp only [State.closeHeading]
  split
  · exact (hadded _ _).warn hline _
  · exact hadded _ _

/-! ## Lists -/

/-- A label is closed before anything else of its item is read. -/
theorem closeLabel {item opener : Marker} (h : InSourceOrder source keep s)
    (hi : s.inline? = some i) (hk : s.cursor.current.kind = .bracketClose) (ha : i.arguments = [])
    (hl : i.line = .label item opener) :
    InSourceOrder source keep (s.closeLabel i.run.fragments) := by
  obtain ⟨hline, -, hle, hcontent⟩ := h.content hi
  rw [ha, hl] at hcontent hle
  rw [hl] at hline
  have hne : s.cursor.current.kind ≠ .endOfFile := by simp [hk]
  have hnext : s.nextStart = opener.token.start := by rw [State.nextStart_of_some hi, hl]; rfl
  have hpast := h.tiled.lastStop_le_lastStop (.advance _)
  have hadvance := h.tiled.advance
  obtain ⟨hi', hhi, -, hst⟩ := h.stacked
  have hmoved : ∀ environments, Stacked source keep s.blocks s.cursor.advance.lastStop
      s.cursor.advance.current.start environments →
      InSourceOrder source keep { s with
        cursor := s.cursor.advance, inline? := none, environments } :=
    fun environments hst => of_none
      (t := { s with cursor := s.cursor.advance, inline? := none, environments })
      hadvance h.reported rfl hst
  have hlater := hst.mono (Nat.le_trans hhi hpast)
    (Nat.le_trans h.nextStart_le (h.tiled.start_le_start (.advance _)))
  simp only [State.closeLabel]
  split
  · exact hmoved _ hlater
  · next e outer henv =>
    have henv' : s.environments = e :: outer := henv
    rw [henv'] at hst hlater hline
    refine hmoved _ ⟨⟨hlater.1.marker, ?_⟩, hlater.2⟩
    cases hrole : e.role with
    | list l =>
      -- The item has no blocks yet, so what comes next in it begins behind the label.
      obtain ⟨mid, hmid, hbegins, -⟩ := hst.1.blocks
      rw [hrole] at hbegins
      have hlist : ListLaid source keep e.marker.token.start mid hi' l := hbegins
      have hempty : e.blocks = [] := hline e rfl (by rw [hrole]; rfl)
      have hopener : l.item.start ≤ opener.token.start := Nat.le_trans hlist.le (hnext ▸ hmid)
      have hend : l.item.start ≤ s.cursor.advance.lastStop :=
        Nat.le_trans hopener (Nat.le_trans hle (h.tiled.start_le_lastStop hne (.refl _)))
      refine ⟨s.cursor.advance.lastStop, hadvance.lastStop_le, ?_, by rw [hempty]; exact .nil⟩
      exact { items := hlist.items, start_le := hlist.start_le, le := hend
              label := (hcontent.mono hopener hpast).finish, settled := .inl (Nat.le_refl _) }
    | _ =>
      have hblocks := hlater.1.blocks
      rw [hrole] at hblocks
      exact hblocks

/-- What finishing an item reports stands at the marker of the list. -/
theorem exists_finishItem_eq {e : OpenEnvironment} {l : OpenList} (h : InSourceOrder source keep s)
    (hmarker : InSource source e.marker.token.start e.marker.token.stop) :
    ∃ ds, (s.finishItem e l).1 = { s with diagnostics := ds } ∧ Reported source ds := by
  obtain ⟨ds, heq, hds⟩ := s.exists_finishItem_eq e l
  have hreported : Reported source ds := by
    intro d hd
    obtain ⟨hstart, hstop⟩ := hds d hd
    rwa [hstart, hstop]
  exact ⟨_, heq, hreported.append h.reported⟩

/-- An item is finished, and the next one begins with the current token. -/
theorem beginItem {e : OpenEnvironment} {outer : List OpenEnvironment} {l : OpenList}
    (h : InSourceOrder source keep s) (hi : s.inline? = none)
    (hk : s.cursor.current.kind ≠ .endOfFile) (he : s.environments = e :: outer)
    (hl : e.role = .list l) :
    InSourceOrder source keep { (s.finishItem e l).1 with
      cursor := s.cursor.advance
      environments := { e with
        role := .list { l with
          items := (s.finishItem e l).2
          item := { start := s.cursor.current.start, implicit := false } }
        blocks := [] } :: outer } := by
  have hst := h.stacked_of_none hi
  rw [he] at hst
  obtain ⟨⟨hmarker, mid, hmid, hbegins, hblocks⟩, houter⟩ := hst
  rw [hl] at hbegins
  have hlist : ListLaid source keep e.marker.token.start mid s.cursor.lastStop l := hbegins
  have hitems := laid_finishItem hlist hblocks hmid h.tiled
  obtain ⟨ds, heq, hds⟩ := h.exists_finishItem_eq (l := l) hmarker
  have hadvance := h.tiled.advance
  have hstart := h.tiled.start_le_start (.advance _)
  have hpast := h.tiled.start_le_lastStop hk (.refl _)
  rw [heq]
  refine .of_none hadvance hds hi ⟨⟨hmarker, s.cursor.current.start, hstart, ?_, .nil⟩, houter⟩
  exact { items := hitems
          start_le := Nat.le_trans hlist.start_le (Nat.le_trans hlist.le hmid)
          label := .nil
          le := Nat.le_refl _
          settled := .inl hpast }

/-- The innermost environment becomes a block, or leaves its blocks in its place. -/
theorem closeEnvironment {e : OpenEnvironment} {outer : List OpenEnvironment}
    (h : InSourceOrder source keep s) (hi : s.inline? = none)
    (hk : s.cursor.current.kind ≠ .endOfFile) (he : s.environments = e :: outer) :
    InSourceOrder source keep (s.closeEnvironment e outer) := by
  have hst := h.stacked_of_none hi
  rw [he] at hst
  obtain ⟨⟨hmarker, mid, hmid, hbegins, hblocks⟩, houter⟩ := hst
  have hadvance := h.tiled.advance
  have hpast := h.tiled.start_le_lastStop hk (.refl _)
  have hbefore := h.tiled.lastStop_le
  have hnext := hadvance.lastStop_le
  -- Blocks in the place of the environment.
  have hadded : ∀ (ds : List Diagnostic) (blocks : List Block), Reported source ds →
      e.marker.token.start ≤ s.cursor.advance.lastStop →
      Laid source keep e.marker.token.start s.cursor.advance.lastStop (blocks.reverse.map .block) →
      InSourceOrder source keep (({ s with
        cursor := s.cursor.advance, environments := outer, diagnostics := ds } : State).addBlocks
          blocks) := by
    intro ds blocks hds hle hlaid
    refine .of_none (by simpa using hadvance) (by simpa using hds) (by simpa using hi) ?_
    have hplaced := Stacked.addBlocks (s := { s with
      cursor := s.cursor.advance, environments := outer, diagnostics := ds }) houter (Nat.le_refl _)
      hlaid hle (Nat.le_trans hle hnext)
    simpa using hplaced
  have hinPlace : e.marker.token.start ≤ mid → InSourceOrder source keep
      (({ s with cursor := s.cursor.advance, environments := outer } : State).addBlocks
        e.blocks) := fun hle =>
    hadded _ _ h.reported (by omega) (hblocks.mono hle (by omega))
  simp only [State.closeEnvironment]
  cases hrole : e.role with
  | inPlace => exact hinPlace (by rw [hrole] at hbegins; exact hbegins)
  | float => exact hinPlace (by rw [hrole] at hbegins; exact hbegins)
  | quote =>
    have hle : e.marker.token.start ≤ mid := by rw [hrole] at hbegins; exact hbegins
    exact hadded _ _ h.reported (by omega) (.singleton rfl rfl (by omega)
      hadvance.lastStop_le_length (hblocks.mono hle (by omega)))
  | list l =>
    rw [hrole] at hbegins
    have hlist : ListLaid source keep e.marker.token.start mid s.cursor.lastStop l := hbegins
    -- The open item ends with the list.
    have hitems := laid_finishItem hlist hblocks hmid h.tiled
    obtain ⟨ds, heq, hds⟩ := h.exists_finishItem_eq (l := l) hmarker
    have hle := Nat.le_trans hlist.start_le hlist.le
    simp only [heq]
    exact hadded _ _ hds (by omega) (.singleton rfl rfl (by omega)
      hadvance.lastStop_le_length (hitems.mono_right (by omega)))

/-! ## Tables -/

/-- The table whose current cell is open, and what the cell holds. -/
theorem cell {table : OpenTable} (h : InSourceOrder source keep s) (hi : s.inline? = some i)
    (ha : i.arguments = []) (hl : i.line = .cell table) :
    TableLaid source keep s.cursor table ∧
      Laid source keep table.cellStart s.cursor.lastStop
        (i.run.fragments.toList.map .inline) := by
  obtain ⟨hline, -, -, hcontent⟩ := h.content hi
  rw [ha, hl] at hcontent
  rw [hl] at hline
  exact ⟨hline, hcontent⟩

theorem nextCell {table : OpenTable} (h : InSourceOrder source keep s) (hi : s.inline? = some i)
    (hk : s.cursor.current.kind ≠ .endOfFile) (ha : i.arguments = []) (hl : i.line = .cell table) :
    InSourceOrder source keep { s with
      cursor := s.cursor.advance
      inline? := some (State.openCell { s.finishCell table i.run.fragments with
        cellStart := s.cursor.advance.current.start
        span := 1 }) } := by
  obtain ⟨htable, hcontent⟩ := h.cell hi ha hl
  have hcells := laid_finishCell htable h.tiled hcontent
  have hmoved := h.tiled.start_le_start (.advance _)
  have hpast := h.tiled.start_le_lastStop hk (.refl _)
  have hbegun := Nat.le_trans (htable.cellStart_le h.tiled) hmoved
  refine h.next_inline hi (.advance _) (by rw [hl]; rfl) (.begin ?_ (Nat.le_refl _))
  exact { rows := htable.rows
          cells := hcells.mono_right (Nat.le_min.mpr ⟨hmoved, hpast⟩)
          marker_le := htable.marker_le
          rowStart_le := Nat.le_trans htable.rowStart_le hbegun
          begun := .inr rfl, spanning := .inl rfl }

theorem nextRow {table : OpenTable} {c : Cursor} (h : InSourceOrder source keep s)
    (hi : s.inline? = some i) (ha : i.arguments = []) (hl : i.line = .cell table)
    (hc : s.cursor.Reaches c) :
    InSourceOrder source keep { s with
      cursor := c
      inline? := some (State.openCell { s.finishRow (s.finishCell table i.run.fragments) with
        rowStart := c.current.start
        cells := []
        cellStart := c.current.start
        span := 1 }) } := by
  obtain ⟨htable, hcontent⟩ := h.cell hi ha hl
  have hmarker : (s.finishRow (s.finishCell table i.run.fragments)).marker = table.marker :=
    State.marker_finishRow _ _
  have hrows := (laid_finishRow htable h.tiled hcontent).mono_right (h.tiled.start_le_start hc)
  have hmoved := Nat.le_trans (htable.cellStart_le h.tiled) (h.tiled.start_le_start hc)
  rw [← hmarker] at hrows
  refine h.next_inline hi hc ?_ (.begin ?_ (Nat.le_refl _))
  · rw [hl]
    exact congrArg (·.token.start) hmarker
  · exact { rows := hrows, cells := .nil, rowStart_le := Nat.le_refl _
            marker_le := hmarker ▸ Nat.le_trans htable.marker_le (Nat.le_trans htable.rowStart_le hmoved)
            begun := .inr rfl, spanning := .inl rfl }

theorem closeTable {table : OpenTable} {rows : List TableRow} (h : InSourceOrder source keep s)
    (hi : s.inline? = some i) (hk : s.cursor.current.kind ≠ .endOfFile) (ha : i.arguments = [])
    (hl : i.line = .cell table)
    (hr : rows = (s.finishRow (s.finishCell table i.run.fragments)).rows.reverse) :
    InSourceOrder source keep (({ s.warnRagged table.marker.text (TableRow.columnCount rows) rows with
        cursor := s.cursor.advance
        inline? := none } : State).addBlocks
      [.table (.span table.marker.token.start s.cursor.advance.lastStop) rows]) := by
  obtain ⟨htable, hcontent⟩ := h.cell hi ha hl
  have hrows := laid_finishRow htable h.tiled hcontent
  rw [← hr] at hrows
  obtain ⟨ds, heq, hds⟩ := s.exists_warnRagged_eq table.marker.text (TableRow.columnCount rows) rows
  -- Each ragged row is reported at its own span.
  have hreported : Reported source ds := by
    intro d hd
    obtain ⟨r, hmem, hstart, hstop⟩ := hds d hd
    have hrow := (hrows.orderly (.tableRow r) (List.mem_map_of_mem hmem)).spans
    rw [hstart, hstop]
    exact ⟨hrow.upright, hrow.stop_le⟩
  have hnext : s.nextStart = table.marker.token.start := by rw [State.nextStart_of_some hi, hl]; rfl
  have hpast := h.tiled.start_le_lastStop hk (.refl _)
  have hle : table.marker.token.start ≤ s.cursor.advance.lastStop :=
    Nat.le_trans (hnext ▸ h.nextStart_le) hpast
  rw [heq]
  exact h.addBlock (t := { s with
    diagnostics := ds ++ s.diagnostics, cursor := s.cursor.advance, inline? := none }) hnext rfl rfl
    rfl (.advance _) (hreported.append h.reported) rfl rfl hle (hrows.mono_right hpast)

/-! ## Arguments -/

/-- An argument of the current command begins with it, or with its brace. -/
theorem openArgument {line : Line} {c : Cursor} {purpose : Purpose}
    (h : InSourceOrder source keep s) (hi : s.inline? = some i)
    (hk : s.cursor.current.kind ≠ .endOfFile)
    (hl : line = i.line ∨ ∃ table span, i.line = .cell table ∧ line = .cell { table with span })
    (hp : ∀ m ∈ purpose.command?, m = s.cursor.marker) (hc : s.cursor.advance.Reaches c) :
    InSourceOrder source keep { s with
      cursor := c.advance
      inline? := some {
        line
        arguments := { purpose, opener := c.marker, outer := i.run } :: i.arguments } } := by
  obtain ⟨hline, hinterrupted, hle, hcontent⟩ := h.content hi
  have hreaches : s.cursor.Reaches c.advance := ((Reaches.advance _).trans hc).trans (.advance _)
  have hmoved := h.tiled.start_le_start ((Reaches.advance _).trans hc)
  have hpast := h.tiled.start_le_lastStop hk (hc.trans (.advance _))
  -- A cell that spans columns begins no later than its command, which is passed.
  obtain ⟨hstart, hcontentStart, hlaid⟩ : line.start = i.line.start ∧
      line.contentStart = i.line.contentStart ∧
      LineLaid source keep c.advance s.environments line := by
    rcases hl with rfl | ⟨table, span, hcell, rfl⟩
    · exact ⟨rfl, rfl, hline.reaches h.tiled hreaches⟩
    · rw [hcell] at hline ⊢
      have htable := TableLaid.reaches hline h.tiled hreaches
      have hbegun := Nat.le_trans (TableLaid.cellStart_le hline h.tiled) hpast
      exact ⟨rfl, rfl, { htable with spanning := .inr hbegun }⟩
  -- The argument begins behind what it interrupts: with the command, or with the brace behind it.
  generalize ha : ({ purpose, opener := c.marker, outer := i.run } : OpenArgument) = a
  obtain ⟨hbegun, hbehind⟩ : s.cursor.current.start ≤ a.start ∧ a.start ≤ c.current.start := by
    rw [← ha, OpenArgument.start]
    cases hcommand : purpose.command? with
    | none => exact ⟨hmoved, Nat.le_refl _⟩
    | some m =>
      rw [Option.getD_some, hp m hcommand]
      exact ⟨Nat.le_refl _, hmoved⟩
  have houter : a.outer = i.run := by rw [← ha]
  refine h.next_inline hi hreaches hstart ⟨hlaid, ⟨?_, ?_, hcontentStart ▸ hinterrupted⟩, ?_, .nil⟩
  · exact hcontentStart ▸ Nat.le_trans hle hbegun
  · rw [houter, hcontentStart]
    exact hcontent.mono_right (Nat.le_trans h.tiled.lastStop_le hbegun)
  · exact Nat.le_trans hbehind ((h.tiled.reaches ((Reaches.advance _).trans hc)).start_le_start
      (.advance _))

theorem closeArgument {a : OpenArgument} {arguments : List OpenArgument}
    (h : InSourceOrder source keep s) (hi : s.inline? = some i)
    (hk : s.cursor.current.kind ≠ .endOfFile) (ha : i.arguments = a :: arguments) :
    InSourceOrder source keep { s with
      cursor := s.cursor.advance
      inline? := some { i with
        run := { a.outer with
          fragments := State.closeArgument a.purpose i.run.fragments s.cursor.current.stop
            a.outer.fragments }
        arguments } } := by
  obtain ⟨hline, hinterrupted, hle, hcontent⟩ := h.content hi
  rw [ha] at hinterrupted hle hcontent
  obtain ⟨houterStart, houter, hrest⟩ := hinterrupted
  have hspan := h.tiled.start_le_stop
  have hstop := h.tiled.stop_le_lastStop hk (.refl _)
  have hcommand : ∀ m ∈ a.purpose.command?, m.token.start = a.start := by
    intro m hm
    rw [OpenArgument.start, Option.mem_def.mp hm]
    rfl
  have hclosed := laid_closeArgument hcommand houter hcontent houterStart (Nat.le_trans hle hspan)
    (Nat.le_trans h.tiled.lastStop_le hspan) h.tiled.stop_le
  refine h.next_inline hi (.advance _) rfl
    ⟨hline.reaches h.tiled (.advance _), hrest, ?_, hclosed.mono_right hstop⟩
  exact Nat.le_trans houterStart (Nat.le_trans hle (h.tiled.start_le_start (.advance _)))

/-! ## Moving on -/

/-- Tokens are passed. -/
theorem skip {c : Cursor} (h : InSourceOrder source keep s) (hc : s.cursor.Reaches c) :
    InSourceOrder source keep { s with cursor := c } := by
  have hpast := h.tiled.lastStop_le_lastStop hc
  cases hi : s.inline? with
  | none =>
    exact .of_none (h.tiled.reaches hc) h.reported rfl
      ((h.stacked_of_none hi).mono hpast (h.tiled.start_le_start hc))
  | some i =>
    have hin := h.content hi
    exact h.next_inline hi hc rfl
      (hin.gather h.tiled hc (hin.content.mono_right hpast))

/-- Content is read from the current token on. -/
theorem gather {c : Cursor} {ns : List Inline} (h : InSourceOrder source keep s)
    (hi : s.inline? = some i) (hk : s.cursor.current.kind ≠ .endOfFile)
    (hr : Reads ctx s.cursor c ns) :
    InSourceOrder source keep (s.gather i c (i.run.fragments.pushAll ns)) := by
  have hin := h.content hi
  have hreaches := (Reaches.advance _).trans hr.reaches_advance
  have hpast := h.tiled.start_le_lastStop hk hr.reaches_advance
  have hcontent := hin.content.mono_right h.tiled.lastStop_le
  exact h.next_inline hi hreaches rfl
    (hin.gather h.tiled hreaches (hcontent.pushAll (hr.laid h.tiled hk) hin.le hpast))

/-- Text is gathered from the current token. -/
theorem gatherToken (h : InSourceOrder source keep s) (hi : s.inline? = some i)
    (hk : s.cursor.current.kind ≠ .endOfFile) (kept : Bool) (text : Text) (braces : List Brace) :
    InSourceOrder source keep { s with
      cursor := s.cursor.advance
      inline? := some { i with
        run := {
          fragments :=
            if kept then
              i.run.fragments.pushText s.cursor.current.start s.cursor.current.stop text
            else i.run.fragments
          braces } } } := by
  have hin := h.content hi
  have hpast := h.tiled.lastStop_le_lastStop (.advance _)
  refine h.next_inline hi (.advance _) rfl (hin.gather h.tiled (.advance _) ?_)
  cases kept with
  | false => exact hin.content.mono_right hpast
  | true =>
    have hadded := hin.content.pushText hin.le h.tiled.lastStop_le h.tiled.start_le_stop
      h.tiled.stop_le text
    exact hadded.mono_right (h.tiled.stop_le_lastStop hk (.refl _))

/-! ## Opening -/

/-- An environment is opened; a list begins with what comes before its first item. -/
theorem beginEnvironment {c : Cursor} {role : Role} (h : InSourceOrder source keep s)
    (hi : s.inline? = none) (hc : s.cursor.advance.Reaches c)
    (hr : ∀ l, role = .list l →
      l.items = [] ∧ l.item = { start := c.current.start, implicit := true }) :
    InSourceOrder source keep (s.pushEnvironment c s.cursor.marker role) := by
  have hreaches := (Reaches.advance s.cursor).trans hc
  have hmoved := h.tiled.start_le_start hreaches
  have houter := (h.stacked_of_none hi).mono h.tiled.lastStop_le (Nat.le_refl _)
  have hbegins : ∃ mid ≤ c.current.start,
      role.Begins source keep s.cursor.current.start mid c.lastStop := by
    refine ⟨c.current.start, Nat.le_refl _, ?_⟩
    cases hrole : role with
    | list l =>
      -- The item before the first marker begins where the cursor stands, behind dropped spacing.
      obtain ⟨hitems, hitem⟩ := hr l hrole
      have hlist : ListLaid source keep s.cursor.current.start c.current.start c.lastStop l :=
        { items := by rw [hitems]; exact .nil
          start_le := by rw [hitem]; exact hmoved
          label := by rw [hitem]; exact .nil
          le := by rw [hitem]
          settled := by rw [hitem]; exact .inr ⟨rfl, rfl⟩ }
      exact hlist
    | _ => exact hmoved
  obtain ⟨mid, hmid, hbegins⟩ := hbegins
  exact .of_none (h.tiled.reaches hreaches) h.reported hi
    ⟨⟨h.tiled.inSource, mid, hmid, hbegins, .nil⟩, houter⟩

theorem beginTable {c : Cursor} (h : InSourceOrder source keep s) (hi : s.inline? = none)
    (hc : s.cursor.Reaches c) :
    InSourceOrder source keep { s with
      cursor := c
      inline? := some (State.openCell
        { marker := s.cursor.marker, rows := [], rowStart := c.current.start, cells := [],
          cellStart := c.current.start, span := 1 }) } := by
  have hmoved := h.tiled.start_le_start hc
  refine h.begin_inline hi hc (Nat.le_refl _) hmoved (Nat.le_refl _) ?_
  show TableLaid source keep c _
  exact { rows := .nil, cells := .nil, marker_le := hmoved, rowStart_le := Nat.le_refl _
          begun := .inr rfl, spanning := .inl rfl }

/-! ## Changes -/

/-- Every change keeps the source order. -/
theorem change (h : InSourceOrder source keep s) (hchange : Change ctx s t) :
    InSourceOrder source keep t := by
  have hadvance : s.cursor.Reaches s.cursor.advance := .advance _
  cases hchange with
  | skip hc => exact h.skip hc
  | warn cause => exact h.warn h.tiled.inSource cause
  | @addLeaf c b hi hb =>
    have hchildren : (Node.block b).children = [] := by cases hb <;> rfl
    have hc := hb.reaches_advance
    have hpast := h.tiled.start_le_lastStop hb.kind_ne_endOfFile hc
    exact h.addBlock (t := { s with cursor := c }) (State.nextStart_of_none hi) rfl rfl hi
      (hadvance.trans hc) h.reported (congrArg NodeInfo.start hb.info_eq)
      (congrArg NodeInfo.stop hb.info_eq) hpast (by rw [hchildren]; exact .nil)
  | beginEnvironment hi hk hc hr => exact h.beginEnvironment hi hc hr
  | closeEnvironment hi hk he => exact h.closeEnvironment hi (by simp [hk]) he
  | beginItem hi hk he hl => exact h.beginItem hi (by simp [hk]) he hl
  | beginLabel hi he hl hb hc ho =>
    have hreaches := hc.trans (.advance _)
    have hmoved := (h.tiled.reaches hc).start_le_start (.advance _)
    refine h.begin_inline hi hreaches (h.tiled.start_le_start hc) hmoved hmoved ?_
    intro e hmem _
    rw [he] at hmem
    exact Option.some.inj hmem ▸ hb
  | beginHeading hi hk hc ho =>
    have hreaches := (hadvance.trans hc).trans (.advance _)
    have hmoved := h.tiled.start_le_start hreaches
    exact h.begin_inline hi hreaches (Nat.le_refl _) hmoved hmoved h.tiled.inSource
  | beginParagraph hi =>
    exact h.begin_inline hi (.refl _) (Nat.le_refl _) (Nat.le_refl _) (Nat.le_refl _) trivial
  | beginTable hi hk hc => exact h.beginTable hi (hadvance.trans hc)
  | gather hi hk hr => exact h.gather hi hk hr
  | openBrace kept hi hk => exact h.gatherToken hi (by simp [hk]) kept _ _
  | closeBrace hi hk hb => exact h.gatherToken hi (by simp [hk]) _ _ _
  | openArgument hi hk hl hp hc ho hu => exact h.openArgument hi (by simp [hk]) hl hp hc
  | closeArgument hi hk ha => exact h.closeArgument hi (by simp [hk]) ha
  | closeParagraph hi ha hl => exact h.closeParagraph hi ha hl
  | closeHeading hi hk ha hl => exact h.closeHeading hi hk ha hl
  | closeLabel hi hk ha hl => exact h.closeLabel hi hk ha hl
  | nextCell hi hk ha hl => exact h.nextCell hi (by simp [hk]) ha hl
  | nextRow hi hk ha hl hc => exact h.nextRow hi ha hl ((Reaches.advance _).trans hc)
  | closeTable hi hk ha hl hr => exact h.closeTable hi (by simp [hk]) ha hl hr

end InSourceOrder

end LatexMarkdown.Parse
