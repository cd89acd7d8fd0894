import LatexMarkdown.Proofs.Running
import Mathlib.Logic.Relation
/-!
  What reading does to its state, and what it can fail with.

  `Change` lists the single things that a step does: tokens are passed, something is reported, content
  is gathered, a construct is opened or closed.  A step is a few of them one after the other
  (`Changes`), so what every change keeps, every run keeps.  `Fault` lists the failures that the
  current token is to blame for, and `Fails` adds those that something still open is to blame for.

  `Yields` says of a reader that may fail what its result is like and what its failure is like.
-/
namespace LatexMarkdown.Parse

open Cursor (Reaches)

/-! ## Results and failures -/

/-- A result is of one kind, or a failure of another. -/
def Yields {α : Type} (ok : α → Prop) (bad : Failure → Prop) (x : Except Failure α) : Prop :=
  match x with
  | .ok a => ok a
  | .error f => bad f

namespace Yields

variable {α β : Type} {ok ok' : α → Prop} {after : β → Prop} {bad bad' : Failure → Prop}
  {x : Except Failure α}

theorem mono (h : Yields ok bad x) (hok : ∀ a, ok a → ok' a) (hbad : ∀ f, bad f → bad' f) :
    Yields ok' bad' x := by
  cases x with
  | ok a => exact hok a h
  | error f => exact hbad f h

/-- One reader after another. -/
theorem bind {k : α → Except Failure β} (h : Yields ok bad x)
    (hk : ∀ a, x = .ok a → ok a → Yields after bad (k a)) : Yields after bad (x >>= k) := by
  cases x with
  | ok a => exact hk a rfl h
  | error f => exact h

theorem map {g : α → β} (h : Yields (fun a => after (g a)) bad x) : Yields after bad (g <$> x) := by
  cases x with
  | ok a => exact h
  | error f => exact h

end Yields

/-! ## Failures -/

/-- The cursor behind a raw body, when one is current. -/
def pastBody (c : Cursor) : Cursor := if c.current.kind = .rawText then c.advance else c

/-- A failure that the current token is to blame for. -/
inductive Fault (c : Cursor) : Failure → Prop
  | nestingTooDeep (h : c.current.kind = .envBegin ∨ c.current.kind = .groupOpen ∨
      c.current.isCommand "item" = true) :
      Fault c ⟨.nestingTooDeep nestingLimit, c.marker⟩
  | missingArgument (h : c.current.kind = .command ∨ c.current.kind = .envBegin) :
      Fault c ⟨Parse.missingArgument c.marker, c.marker⟩
  | malformedLink (h : c.current.isCommand "href" = true) :
      Fault c ⟨.malformedLink c.marker.text, c.marker⟩
  | unclosedGroup (h : c.current.kind = .groupOpen) :
      Fault c ⟨.unclosedGroup c.marker.text, c.marker⟩
  | unclosedMath (h : c.current.kind = .mathInline ∨ c.current.kind = .mathDisplay) :
      Fault c ⟨.unclosedMath c.marker.text, c.marker⟩
  /-- The second half of a double dollar opens mathematics that is not closed. -/
  | unclosedHalf (hk : c.current.kind = .mathDisplay) (ht : c.current.text = "$$") :
      Fault c ⟨.unclosedMath "$",
        ⟨{ c.current with kind := .mathInline, start := c.current.start + 1, text := "$" },
          c.index⟩⟩
  | unclosedEnvironment (h : c.current.kind = .envBegin) :
      Fault c ⟨.unclosedEnvironment c.marker.text, c.marker⟩
  /-- Something other than the end marker follows the body of a raw environment. -/
  | mismatchedBody (hk : c.current.kind = .envBegin) (hraw : c.current.text ∈ rawEnvironments)
      (hend : (pastBody c.advance).current.kind ≠ .endOfFile)
      (hne : ¬ ((pastBody c.advance).current.kind = .envEnd ∧
        (pastBody c.advance).current.text = c.current.text)) :
      Fault c ⟨.mismatchedEnvironment (pastBody c.advance).current.text c.current.text,
        (pastBody c.advance).marker⟩
  | unexpectedEnvironmentEnd (h : c.current.kind = .envEnd) :
      Fault c ⟨.unexpectedEnvironmentEnd c.marker.text, c.marker⟩
  | unexpectedGroupClose (h : c.current.kind = .groupClose) :
      Fault c ⟨.unexpectedGroupClose, c.marker⟩
  | nestedEnvironment (h : c.current.kind = .envBegin) :
      Fault c ⟨.nestedEnvironment c.marker.text, c.marker⟩
  | nestedHeading (hk : c.current.kind = .command)
      (hl : (headingLevel? c.current.text).isSome = true) :
      Fault c ⟨.nestedHeading c.marker.text, c.marker⟩

/-- A failure that a token from the current one on is to blame for. -/
def Faults (c : Cursor) (f : Failure) : Prop := ∃ d, c.Reaches d ∧ Fault d f

theorem Faults.current {c : Cursor} {f : Failure} (h : Fault c f) : Faults c f := ⟨c, .refl c, h⟩

theorem Faults.of_reaches {c d : Cursor} {f : Failure} (hc : c.Reaches d) (h : Faults d f) :
    Faults c f := by
  obtain ⟨e, he, hf⟩ := h
  exact ⟨e, hc.trans he, hf⟩

/-- The begin marker of an environment or of a table that is open. -/
def State.HasOpen (s : State) (m : Marker) : Prop :=
  m ∈ s.environments.map (·.marker) ∨
    ∃ i ∈ s.inline?, ∃ table, i.line = .cell table ∧ table.marker = m

/-- A failure of a step: a token ahead is to blame for it, or something that is still open, or an end
marker ahead that is not the one of what is open. -/
inductive Fails (s : State) : Failure → Prop
  | fault {f : Failure} (h : Faults s.cursor f) : Fails s f
  | mismatched {c : Cursor} {opened : Marker} (hc : s.cursor.Reaches c)
      (hk : c.current.kind = .envEnd) (ho : s.HasOpen opened) :
      Fails s ⟨.mismatchedEnvironment c.marker.text opened.text, c.marker⟩
  | environment {e : OpenEnvironment} (he : e ∈ s.environments) :
      Fails s ⟨.unclosedEnvironment e.marker.text, e.marker⟩
  | table {i : OpenInline} {table : OpenTable} (hi : s.inline? = some i)
      (hl : i.line = .cell table) :
      Fails s ⟨.unclosedEnvironment table.marker.text, table.marker⟩
  | group {i : OpenInline} {opener : Marker} (hi : s.inline? = some i)
      (hs : i.surround = .group opener ∨ i.surround = .label opener) :
      Fails s ⟨.unclosedGroup opener.text, opener⟩

/-- A failure further ahead, with the same open. -/
theorem Fails.of_reaches {s : State} {c : Cursor} {f : Failure} (hc : s.cursor.Reaches c)
    (h : Fails { s with cursor := c } f) : Fails s f := by
  cases h with
  | fault h => exact .fault (h.of_reaches hc)
  | mismatched hd hk ho => exact .mismatched (hc.trans hd) hk ho
  | environment he => exact .environment he
  | table hi hl => exact .table hi hl
  | group hi hs => exact .group hi hs

/-! ## Changes -/

/-- The command that an argument belongs to; spanning cells have theirs outside. -/
def Purpose.command? : Purpose → Option Marker
  | styled command _ | linkText command _ => some command
  | spanning => none

/-- What is read from the current token on where it adds finished content, with the cursor behind
it. -/
inductive Reads (ctx : Context) (c : Cursor) : Cursor → List Inline → Prop
  /-- Nothing is kept. -/
  | dropped {d : Cursor} (hd : c.advance.Reaches d) : Reads ctx c d []
  /-- The token is kept as text. -/
  | text (t : Text) :
      Reads ctx c c.advance [.text (.span c.current.start c.current.stop) t]
  /-- A comment is kept as text, and the line break behind it. -/
  | comment (t : Text) (hk : c.advance.current.kind = .newLine) :
      Reads ctx c c.advance.advance
        [.text (.span c.current.start c.current.stop) t,
          .hardBreak (.span c.advance.current.start c.advance.current.stop)]
  /-- The token breaks the line. -/
  | hardBreak {d : Cursor} (hd : c.advance.Reaches d) :
      Reads ctx c d [.hardBreak (.span c.current.start c.current.stop)]
  /-- The token and an argument make a link that is its own text. -/
  | url {d : Cursor} {t : Text} (hn : c.current.isCommand "url" = true)
      (h : readGroup ctx.source c.marker (Parse.missingArgument c.marker) c.advance = .ok (t, d)) :
      Reads ctx c d [.link (.span c.current.start d.lastStop) t.trim
        [.text (.span c.current.start d.lastStop) t.trim]]
  /-- The token and the raw text behind it are code. -/
  | verbatim (hc : c.current.kind = .command) (hk : c.advance.current.kind = .rawText) :
      Reads ctx c c.advance.advance
        [.code (.span c.current.start c.advance.current.stop) c.advance.current.text]
  /-- The token opens mathematics. -/
  | math {d : Cursor} {ns : List Inline} (h : readInlineMath ctx.source c = .ok (ns, d))
      (hk : c.current.kind = .mathInline ∨ c.current.kind = .mathDisplay)
      (hopens : ¬ (c.current.text = "\\)" ∨ c.current.text = "\\]")) : Reads ctx c d ns

theorem Reads.reaches_advance {ctx : Context} {c d : Cursor} {ns : List Inline}
    (h : Reads ctx c d ns) : c.advance.Reaches d := by
  cases h with
  | dropped hd | hardBreak hd => exact hd
  | url _ h => exact reaches_of_readGroup h
  | text => exact .refl _
  | comment | verbatim => exact .advance _
  | math h => exact reaches_of_readInlineMath h

/-- The raw text at a cursor, where some stands there. -/
def rawBody (c : Cursor) : Text := if c.current.kind = .rawText then c.current.text else []

/-- A block that is read from the current token on all at once, with the cursor behind it. -/
inductive Leaf (ctx : Context) (c : Cursor) : Cursor → Block → Prop
  /-- The body of a raw environment is code. -/
  | code {d : Cursor} (hk : c.current.kind = .envBegin) (hraw : c.current.text ∈ rawEnvironments)
      (hd : State.expectEnd (pastBody c.advance) c.marker = .ok d) :
      Leaf ctx c d (.code (.span c.current.start d.lastStop)
        (CodeBody.ofBody c.current.text (rawBody c.advance)).text
        (CodeBody.ofBody c.current.text (rawBody c.advance)).language)
  /-- The body of an environment is mathematics. -/
  | environment {text : Text} {n : Nat} (aligned : Bool) (hk : c.current.kind = .envBegin)
      (h : textUpTo? ctx.source (fun t => t.kind == .envEnd && t.text == c.current.text)
        c.advance.ahead = some (text, n))
      (hname : EnvironmentKind.ofName? c.current.text
        = some (if aligned then .alignedMath else .mathBlock)) :
      Leaf ctx c (c.advance.advanceBy n)
        (.math (.span c.current.start (c.advance.advanceBy n).lastStop) text.trim
          (if aligned then some c.current.text else none))
  /-- What stands between two delimiters is mathematics, unless it is empty. -/
  | display {text : Text} {d : Cursor} (hk : c.current.kind = .mathDisplay)
      (h : readMath ctx.source c = .ok (text, d)) (hne : text ≠ [])
      (hopens : opensDisplay c.current = true) :
      Leaf ctx c d (.math (.span c.current.start d.lastStop) text none)

namespace Leaf

variable {ctx : Context} {c d : Cursor} {b : Block}

theorem reaches_advance (h : Leaf ctx c d b) : c.advance.Reaches d := by
  cases h with
  | code _ _ hd =>
    unfold pastBody at hd
    exact (State.reaches_body _).trans (State.passes_of_expectEnd hd).reaches
  | environment => exact .advanceBy _ _
  | display _ h => exact reaches_of_readMath h

theorem kind_ne_endOfFile (h : Leaf ctx c d b) : c.current.kind ≠ .endOfFile := by
  cases h with
  | code hk | environment _ hk | display hk => simp [hk]

theorem info_eq (h : Leaf ctx c d b) : b.info = .span c.current.start d.lastStop := by
  cases h <;> rfl

end Leaf

/-- A single thing that reading does to its state. -/
inductive Change (ctx : Context) (s : State) : State → Prop
  /-- Tokens are passed. -/
  | skip {c : Cursor} (hc : s.cursor.Reaches c) : Change ctx s { s with cursor := c }
  /-- The current token is reported for what it says; the structure of the document is reported where
  it is finished. -/
  | warn (cause : Degradation) (hcause : cause.category ≠ "structure") :
      Change ctx s (s.warnAt cause s.cursor.current)
  /-- Code or mathematics is added. -/
  | addLeaf {c : Cursor} {b : Block} (hi : s.inline? = none) (hb : Leaf ctx s.cursor c b) :
      Change ctx s (({ s with cursor := c } : State).addBlocks [b])
  /-- An environment is opened, none that is read raw; a list begins with what comes before its first
  item. -/
  | beginEnvironment {c : Cursor} {role : Role} (hi : s.inline? = none)
      (hk : s.cursor.current.kind = .envBegin) (hc : s.cursor.advance.Reaches c)
      (hr : ∀ l, role = .list l →
        l.items = [] ∧ l.item = { start := c.current.start, implicit := true })
      (hdepth : s.depth + 1 ≤ nestingLimit) (hraw : s.cursor.current.text ∉ rawEnvironments) :
      Change ctx s (s.pushEnvironment c s.cursor.marker role)
  /-- The innermost environment is closed. -/
  | closeEnvironment {e : OpenEnvironment} {outer : List OpenEnvironment} (hi : s.inline? = none)
      (hk : s.cursor.current.kind = .envEnd) (he : s.environments = e :: outer) :
      Change ctx s (s.closeEnvironment e outer)
  /-- The open item of a list is finished, and one is begun. -/
  | beginItem {e : OpenEnvironment} {outer : List OpenEnvironment} {l : OpenList}
      (hi : s.inline? = none) (hk : s.cursor.current.kind = .command)
      (he : s.environments = e :: outer) (hl : e.role = .list l) :
      Change ctx s { (s.finishItem e l).1 with
        cursor := s.cursor.advance
        environments := { e with
          role := .list { l with
            items := (s.finishItem e l).2
            item := { start := s.cursor.current.start, implicit := false } }
          blocks := [] } :: outer }
  /-- The label of an item just begun is opened. -/
  | beginLabel {e : OpenEnvironment} {outer : List OpenEnvironment} {l : OpenList} {item : Marker}
      {c : Cursor} (hi : s.inline? = none) (he : s.environments = e :: outer)
      (hl : e.role = .list l) (hb : e.blocks = [])
      (hc : s.cursor.Reaches c) (ho : c.current.kind = .bracketOpen)
      (hdepth : s.depth + 1 ≤ nestingLimit) :
      Change ctx s { s with
        cursor := c.advance
        inline? := some { line := .label item c.marker } }
  /-- A heading is opened. -/
  | beginHeading {c : Cursor} {level : Nat} (hi : s.inline? = none)
      (hk : s.cursor.current.kind = .command) (hc : s.cursor.advance.Reaches c)
      (ho : c.current.kind = .groupOpen)
      (hlevel : headingLevel? s.cursor.current.text = some level)
      (hdepth : s.depth + 1 ≤ nestingLimit) :
      Change ctx s { s with
        cursor := c.advance
        inline? := some { line := .heading s.cursor.marker level c.marker } }
  /-- A paragraph is opened before the current token. -/
  | beginParagraph (hi : s.inline? = none) :
      Change ctx s { s with inline? := some { line := .paragraph s.cursor.current.start } }
  /-- A table is opened, with its first row and cell. -/
  | beginTable {c : Cursor} (hi : s.inline? = none) (hk : s.cursor.current.kind = .envBegin)
      (hc : s.cursor.advance.Reaches c) (hdepth : s.depth + 1 ≤ nestingLimit)
      (hraw : s.cursor.current.text ∉ rawEnvironments) :
      Change ctx s { s with
        cursor := c
        inline? := some (State.openCell
          { marker := s.cursor.marker, rows := [], rowStart := c.current.start, cells := [],
            cellStart := c.current.start, span := 1 }) }
  /-- Content is gathered. -/
  | gather {i : OpenInline} {c : Cursor} {ns : List Inline} (hi : s.inline? = some i)
      (hk : s.cursor.current.kind ≠ .endOfFile) (hr : Reads ctx s.cursor c ns) :
      Change ctx s (s.gather i c (i.run.fragments.pushAll ns))
  /-- Braces of no command are opened. -/
  | openBrace {i : OpenInline} (kept : Bool) (hi : s.inline? = some i)
      (hk : s.cursor.current.kind = .groupOpen) (hdepth : s.depth + 1 ≤ nestingLimit) :
      Change ctx s { s with
        cursor := s.cursor.advance
        inline? := some { i with
          run := {
            fragments :=
              if kept then
                i.run.fragments.pushText s.cursor.current.start s.cursor.current.stop "\x7b"
              else i.run.fragments
            braces := ⟨s.cursor.marker, kept⟩ :: i.run.braces } } }
  /-- Braces of no command are closed. -/
  | closeBrace {i : OpenInline} {b : Brace} {braces : List Brace} (hi : s.inline? = some i)
      (hk : s.cursor.current.kind = .groupClose) (hb : i.run.braces = b :: braces) :
      Change ctx s { s with
        cursor := s.cursor.advance
        inline? := some { i with
          run := {
            fragments :=
              if b.kept then
                i.run.fragments.pushText s.cursor.current.start s.cursor.current.stop "\x7d"
              else i.run.fragments
            braces } } }
  /-- An argument of the current command is opened; that of a cell may say that it spans columns, and
  before that of a link another one is read. -/
  | openArgument {i : OpenInline} {line : Line} {c : Cursor} {purpose : Purpose}
      (hi : s.inline? = some i) (hk : s.cursor.current.kind = .command)
      (hl : line = i.line ∨ ∃ table span, i.line = .cell table ∧ line = .cell { table with span })
      (hp : ∀ m ∈ purpose.command?, m = s.cursor.marker) (hc : s.cursor.advance.Reaches c)
      (ho : c.current.kind = .groupOpen)
      (hu : ∀ m url, purpose = .linkText m url → s.cursor.current.isCommand "href" = true ∧
        ∃ flaw t d, readGroup ctx.source s.cursor.marker flaw s.cursor.advance = .ok (t, d) ∧
          url = t.trim)
      (hdepth : s.depth + 1 ≤ nestingLimit) :
      Change ctx s { s with
        cursor := c.advance
        inline? := some {
          line
          arguments := { purpose, opener := c.marker, outer := i.run } :: i.arguments } }
  /-- The innermost argument is closed. -/
  | closeArgument {i : OpenInline} {a : OpenArgument} {arguments : List OpenArgument}
      (hi : s.inline? = some i) (hk : s.cursor.current.kind = .groupClose)
      (ha : i.arguments = a :: arguments) :
      Change ctx s { s with
        cursor := s.cursor.advance
        inline? := some { i with
          run := { a.outer with
            fragments := State.closeArgument a.purpose i.run.fragments s.cursor.current.stop
              a.outer.fragments }
          arguments } }
  /-- A paragraph is closed before the current token. -/
  | closeParagraph {i : OpenInline} {start : Nat} (hi : s.inline? = some i)
      (ha : i.arguments = []) (hl : i.line = .paragraph start) :
      Change ctx s (s.closeParagraph start i.run.fragments)
  /-- A heading is closed. -/
  | closeHeading {i : OpenInline} {command opener : Marker} {level : Nat}
      (hi : s.inline? = some i) (hk : s.cursor.current.kind = .groupClose)
      (ha : i.arguments = []) (hl : i.line = .heading command level opener) :
      Change ctx s (s.closeHeading ctx command level i.run.fragments)
  /-- An item label is closed. -/
  | closeLabel {i : OpenInline} {item opener : Marker} (hi : s.inline? = some i)
      (hk : s.cursor.current.kind = .bracketClose) (ha : i.arguments = [])
      (hl : i.line = .label item opener) :
      Change ctx s (s.closeLabel i.run.fragments)
  /-- A cell is finished, and the next one of its row is begun. -/
  | nextCell {i : OpenInline} {table : OpenTable} (hi : s.inline? = some i)
      (hk : s.cursor.current.kind = .alignmentTab) (ha : i.arguments = [])
      (hl : i.line = .cell table) :
      Change ctx s { s with
        cursor := s.cursor.advance
        inline? := some (State.openCell { s.finishCell table i.run.fragments with
          cellStart := s.cursor.advance.current.start
          span := 1 }) }
  /-- A cell and its row are finished, and the next row is begun. -/
  | nextRow {i : OpenInline} {table : OpenTable} {c : Cursor} (hi : s.inline? = some i)
      (hk : s.cursor.current.kind = .lineBreak) (ha : i.arguments = [])
      (hl : i.line = .cell table) (hc : s.cursor.advance.Reaches c) :
      Change ctx s { s with
        cursor := c
        inline? := some (State.openCell { s.finishRow (s.finishCell table i.run.fragments) with
          rowStart := c.current.start
          cells := []
          cellStart := c.current.start
          span := 1 }) }
  /-- A cell, its row and the table are finished. -/
  | closeTable {i : OpenInline} {table : OpenTable} {rows : List TableRow}
      (hi : s.inline? = some i) (hk : s.cursor.current.kind = .envEnd) (ha : i.arguments = [])
      (hl : i.line = .cell table)
      (hr : rows = (s.finishRow (s.finishCell table i.run.fragments)).rows.reverse) :
      Change ctx s (({ s.warnRagged table.marker.text (TableRow.columnCount rows) rows with
          cursor := s.cursor.advance
          inline? := none } : State).addBlocks
        [.table (.span table.marker.token.start s.cursor.advance.lastStop) rows])

/-- The report on a row that has fewer cells than there are columns. -/
def raggedReport (environment : Text) (columns : Nat) (r : TableRow) : Diagnostic :=
  ⟨.raggedTableRow r.cells.length columns environment, r.info.start, r.info.stop⟩

/-- Warning of ragged rows reports them one after the other, and does nothing else. -/
theorem State.warnRagged_eq (s : State) (environment : Text) (columns : Nat) (rows : List TableRow) :
    s.warnRagged environment columns rows = { s with
      diagnostics := ((rows.filter (·.cells.length < columns)).map
        (raggedReport environment columns)).reverse ++ s.diagnostics } := by
  unfold warnRagged
  -- Row by row, in the order in which they are reported.
  induction rows generalizing s with
  | nil => rfl
  | cons r rest ih =>
    rw [List.foldl_cons, ih, List.filter_cons]
    by_cases hshort : r.cells.length < columns
    · rw [if_pos hshort, if_pos (by simpa using hshort), List.map_cons, List.reverse_cons,
        List.append_assoc]
      rfl
    · rw [if_neg hshort, if_neg (by simpa using hshort)]

/-- Warning of ragged rows adds diagnostics with the spans of rows, and nothing else. -/
theorem State.exists_warnRagged_eq (s : State) (environment : Text) (columns : Nat)
    (rows : List TableRow) :
    ∃ ds : List Diagnostic,
      s.warnRagged environment columns rows = { s with diagnostics := ds ++ s.diagnostics } ∧
        ∀ d ∈ ds, ∃ r ∈ rows, d.start = r.info.start ∧ d.stop = r.info.stop := by
  refine ⟨_, s.warnRagged_eq environment columns rows, fun d hd => ?_⟩
  obtain ⟨r, hr, rfl⟩ := List.mem_map.mp (List.mem_reverse.mp hd)
  exact ⟨r, (List.mem_filter.mp hr).1, rfl, rfl⟩

/-- Finishing an item may report, at the marker of its list, that the item had none; it does nothing
else to the state. -/
theorem State.exists_finishItem_eq (s : State) (e : OpenEnvironment) (l : OpenList) :
    ∃ ds : List Diagnostic, (s.finishItem e l).1 = { s with diagnostics := ds ++ s.diagnostics } ∧
      ∀ d ∈ ds, d.start = e.marker.token.start ∧ d.stop = e.marker.token.stop := by
  simp only [finishItem]
  split
  · exact ⟨[], rfl, by simp⟩
  · split
    · exact ⟨[], rfl, by simp⟩
    · refine ⟨[⟨.implicitListItem e.marker.text, e.marker.token.start, e.marker.token.stop⟩], rfl, ?_⟩
      simp

/-- Changes one after the other. -/
abbrev Changes (ctx : Context) : State → State → Prop := Relation.ReflTransGen (Change ctx)

/-- What a step comes to: a few changes, or the end of the document with nothing open. -/
def Stepped (ctx : Context) (s : State) : Option State → Prop
  | some next => Changes ctx s next
  | none => s.inline? = none ∧ s.environments = []

end LatexMarkdown.Parse
