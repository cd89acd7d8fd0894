import LatexMarkdown.Proofs.Depth.Nodes
import LatexMarkdown.Proofs.Spans
/-!
  Documents are nested only so deep.

  Main statement: `count_nesting_le`.  On no way down from the root of a document that is read are
  there more than 256 lists, quotes, tables, strong and emphasized nodes.

  Reading only looks at how many constructs are open when it opens one.  `State.Shallow` says what
  that comes to: with the constructs still open around a piece of a state taken for nesting nodes,
  the piece fits.  A construct that is closed becomes at most one nesting node, in the place of the
  one that was open, so every change keeps this (`State.Shallow.change`).
-/
namespace LatexMarkdown

namespace Parse

/-! ## What is open -/

/-- Finished items of a list with so many environments open, itself the last of them, and the label
of its open item, which stands one deeper. -/
structure OpenList.FitsAt (depth : Nat) (l : OpenList) : Prop where
  items : ∀ item ∈ l.items, (Node.listItem item).FitsAt depth
  label : Inline.FitAt (depth + 1) l.item.label

/-- Finished blocks of an environment; of a list also its items. -/
structure OpenEnvironment.FitsAt (depth : Nat) (e : OpenEnvironment) : Prop where
  blocks : ∀ b ∈ e.blocks, (Node.block b).FitsAt depth
  list : ∀ l, e.role = .list l → l.FitsAt depth

/-- Open environments, the innermost one first. -/
def EnvironmentsFit : List OpenEnvironment → Prop
  | [] => True
  | e :: outer => e.FitsAt (outer.length + 1) ∧ EnvironmentsFit outer

/-- Finished rows of a table and finished cells of its open row. -/
structure OpenTable.FitsAt (depth : Nat) (t : OpenTable) : Prop where
  rows : ∀ r ∈ t.rows, (Node.tableRow r).FitsAt depth
  cells : ∀ c ∈ t.cells, (Node.tableCell c).FitsAt depth

/-- What open arguments interrupt, the innermost one first, when the line stands at `depth`. -/
def ArgumentsFit (depth : Nat) : List OpenArgument → Prop
  | [] => True
  | a :: outer => a.outer.fragments.FitAt (depth + outer.length) ∧ ArgumentsFit depth outer

/-- Inline content with so many environments around it.  Braces make no nodes and do not count. -/
structure OpenInline.FitsAt (depth : Nat) (i : OpenInline) : Prop where
  table : ∀ t, i.line = .cell t → t.FitsAt (depth + 1)
  gathered : i.run.fragments.FitAt (depth + i.line.depth + i.arguments.length)
  arguments : ArgumentsFit (depth + i.line.depth) i.arguments

/-- Everything that is open and finished fits, and no more is open than there may be. -/
structure State.Shallow (s : State) : Prop where
  depth_le : s.depth ≤ nestingLimit
  blocks : ∀ b ∈ s.blocks, (Node.block b).FitsAt 0
  environments : EnvironmentsFit s.environments
  inline : ∀ i ∈ s.inline?, i.FitsAt s.environments.length

/-! ## Pieces -/

variable {ctx : Context} {s t : State} {i : OpenInline} {d : Nat}

/-- The nodes that inline content may become are among the constructs that are open. -/
theorem OpenInline.length_arguments_le (i : OpenInline) :
    i.line.depth + i.arguments.length ≤ i.depth := by
  -- Every argument counts for itself; the braces around it come on top.
  have hsum : ∀ as : List OpenArgument,
      as.length ≤ as.foldr (fun a n => a.outer.braces.length + 1 + n) 0 := by
    intro as
    induction as with
    | nil => exact Nat.le_refl 0
    | cons a rest ih =>
      rw [List.foldr_cons, List.length_cons]
      omega
  have hle := hsum i.arguments
  rw [OpenInline.depth]
  omega

theorem State.depth_eq (hi : s.inline? = some i) : s.depth = s.environments.length + i.depth := by
  rw [State.depth, hi]
  rfl

theorem State.depth_eq_of_none (hi : s.inline? = none) : s.depth = s.environments.length := by
  rw [State.depth, hi]
  rfl

theorem fitsAt_finishItem {e : OpenEnvironment} {l : OpenList} (he : e.FitsAt d) (hl : l.FitsAt d)
    (hd : d ≤ nestingLimit) : ∀ item ∈ (s.finishItem e l).2, (Node.listItem item).FitsAt d := by
  have hfinished := fitsAt_listItem hl.label (fun b hb => he.blocks b (List.mem_reverse.mp hb)) hd
    l.item.start s.cursor.lastStop
  simp only [State.finishItem]
  split
  · exact List.forall_mem_cons.mpr ⟨hfinished _, hl.items⟩
  · split
    · exact hl.items
    · exact List.forall_mem_cons.mpr ⟨hfinished _, hl.items⟩

theorem fitsAt_finishCell {table : OpenTable} {content : Fragments} (h : table.FitsAt d)
    (hcontent : content.FitAt d) (hd : d ≤ nestingLimit) :
    (s.finishCell table content).FitsAt d := by
  have hcell : ∀ (i : NodeInfo) (cs : List Inline), Inline.FitAt d cs →
      (Node.tableCell ⟨i, cs⟩).FitsAt d :=
    fun i cs hcs => Node.fitsAt_of_not_nests rfl hd hcs.children
  refine ⟨h.rows, fun c hc => ?_⟩
  rcases List.mem_append.mp hc with hc | hc
  · -- The empty cells behind one that spans columns.
    rw [List.eq_of_mem_replicate hc]
    exact hcell _ [] fun n hn => absurd hn List.not_mem_nil
  · rcases List.mem_cons.mp hc with rfl | hc
    · exact hcell _ _ (hcontent.finish hd)
    · exact h.cells c hc

theorem fitsAt_finishRow {table : OpenTable} (h : table.FitsAt d) (hd : d ≤ nestingLimit) :
    ∀ r ∈ (s.finishRow table).rows, (Node.tableRow r).FitsAt d := by
  simp only [State.finishRow]
  split
  · refine List.forall_mem_cons.mpr ⟨Node.fitsAt_of_not_nests rfl hd fun c hc => ?_, h.rows⟩
    obtain ⟨cell, hmem, rfl⟩ := List.mem_map.mp hc
    exact h.cells cell (List.mem_reverse.mp hmem)
  · exact h.rows

namespace State.Shallow

/-! ## Moving on -/

theorem initial (settings : Settings) (source : Text) : (State.initial settings source).Shallow := by
  refine ⟨Nat.zero_le _, ?_, trivial, ?_⟩
  · exact fun b hb => absurd hb List.not_mem_nil
  · simp [State.initial]

theorem length_environments_le (h : s.Shallow) : s.environments.length ≤ nestingLimit := by
  have hdepth := h.depth_le
  rw [State.depth] at hdepth
  omega

/-- Inline content fits with what is open around it. -/
theorem length_le (h : s.Shallow) (hi : s.inline? = some i) :
    s.environments.length + i.line.depth + i.arguments.length ≤ nestingLimit := by
  have hdepth := h.depth_le
  have harguments := i.length_arguments_le
  rw [State.depth_eq hi] at hdepth
  omega

/-- The same is open and finished. -/
theorem of_same (h : s.Shallow) (hb : t.blocks = s.blocks) (he : t.environments = s.environments)
    (hi : t.inline? = s.inline?) : t.Shallow := by
  refine ⟨?_, hb ▸ h.blocks, he ▸ h.environments, ?_⟩
  · have hdepth := h.depth_le
    rwa [State.depth, ← he, ← hi] at hdepth
  · rw [hi, he]
    exact h.inline

/-- Other inline content is open inside the same environments. -/
theorem next_inline (h : s.Shallow) {j : OpenInline} (hb : t.blocks = s.blocks)
    (he : t.environments = s.environments) (hi : t.inline? = some j)
    (hd : s.environments.length + j.depth ≤ nestingLimit) (hj : j.FitsAt s.environments.length) :
    t.Shallow := by
  refine ⟨?_, hb ▸ h.blocks, he ▸ h.environments, ?_⟩
  · rwa [State.depth_eq hi, he]
  · intro i hmem
    rw [hi] at hmem
    rw [he]
    exact Option.some.inj hmem ▸ hj

/-- Between blocks, in environments that fit. -/
theorem next_none (h : s.Shallow) (hb : t.blocks = s.blocks) (he : EnvironmentsFit t.environments)
    (hlength : t.environments.length ≤ nestingLimit) (hi : t.inline? = none) : t.Shallow := by
  refine ⟨?_, hb ▸ h.blocks, he, by simp [hi]⟩
  rwa [State.depth_eq_of_none hi]

/-- Inline content is left. -/
theorem leave (h : s.Shallow) (hb : t.blocks = s.blocks) (he : t.environments = s.environments)
    (hi : t.inline? = none) : t.Shallow :=
  h.next_none hb (he ▸ h.environments) (he ▸ h.length_environments_le) hi

theorem addBlocks (h : s.Shallow) {blocks : List Block}
    (hb : ∀ b ∈ blocks, (Node.block b).FitsAt s.environments.length) :
    (s.addBlocks blocks).Shallow := by
  have hfit := h.environments
  have hdepth := h.depth_le
  have hinline := h.inline
  unfold State.addBlocks
  split
  · next he =>
    rw [he] at hb
    refine ⟨hdepth, fun b hmem => ?_, hfit, hinline⟩
    exact (List.mem_append.mp hmem).elim (hb b) (h.blocks b)
  · next e outer he =>
    -- Inside an environment the blocks are the innermost one's.
    rw [he] at hb hfit hinline
    rw [State.depth, he] at hdepth
    refine ⟨hdepth, h.blocks, ⟨⟨fun b hmem => ?_, hfit.1.list⟩, hfit.2⟩, hinline⟩
    exact (List.mem_append.mp hmem).elim (hb b) (hfit.1.blocks b)

/-- Inline content is left, and a block comes of it. -/
theorem leave_addBlock (h : s.Shallow) (hb : t.blocks = s.blocks)
    (he : t.environments = s.environments) (hi : t.inline? = none) {b : Block}
    (hfit : (Node.block b).FitsAt s.environments.length) : (t.addBlocks [b]).Shallow :=
  (h.leave hb he hi).addBlocks (List.forall_mem_singleton.mpr (he ▸ hfit))

/-! ## Closing -/

/-- What was gathered in a line fits where the line stands. -/
theorem gathered (h : s.Shallow) (hi : s.inline? = some i) (ha : i.arguments = []) {k : Nat}
    (hk : i.line.depth = k) : s.environments.length + k ≤ nestingLimit ∧
      i.run.fragments.FitAt (s.environments.length + k) := by
  have hle := h.length_le hi
  have hgathered := (h.inline i hi).gathered
  rw [ha, hk] at hle hgathered
  exact ⟨hle, hgathered⟩

theorem closeParagraph (h : s.Shallow) (hi : s.inline? = some i) (ha : i.arguments = [])
    {start : Nat} (hl : i.line = .paragraph start) :
    (s.closeParagraph start i.run.fragments).Shallow := by
  obtain ⟨hle, hgathered⟩ := h.gathered hi ha (k := 0) (by rw [hl]; rfl)
  simp only [State.closeParagraph]
  split
  · exact h.leave rfl rfl rfl
  · exact h.leave_addBlock (t := { s with inline? := none }) rfl rfl rfl
      (Node.fitsAt_of_not_nests rfl hle (hgathered.finish hle).children)

theorem closeHeading (h : s.Shallow) (hi : s.inline? = some i) (ha : i.arguments = [])
    {command opener : Marker} {level : Nat} (hl : i.line = .heading command level opener) :
    (s.closeHeading ctx command level i.run.fragments).Shallow := by
  obtain ⟨hle, hgathered⟩ := h.gathered hi ha (k := 1) (by rw [hl]; rfl)
  -- A heading is counted while it is open, but is no nesting node: its content has one to spare.
  have hchildren := (hgathered.finish (by omega)).mono (Nat.le_succ _)
  have hadded : ∀ (info : NodeInfo) (level : Number),
      (({ s with cursor := s.cursor.advance, inline? := none } : State).addBlocks
        [.heading info level i.run.fragments.finish]).Shallow := fun info level =>
    h.leave_addBlock (t := { s with cursor := s.cursor.advance, inline? := none }) rfl rfl rfl
      (Node.fitsAt_of_not_nests rfl (by omega) hchildren.children)
  simp only [State.closeHeading]
  split
  · exact (hadded _ _).of_same rfl rfl rfl
  · exact hadded _ _

/-- The innermost environment takes another role, and keeps some of its blocks. -/
theorem withRole {e : OpenEnvironment} {outer : List OpenEnvironment} {blocks : List Block}
    {role : Role} (h : s.Shallow) (he : s.environments = e :: outer)
    (hb : ∀ b ∈ blocks, b ∈ e.blocks) (hr : ∀ l, role = .list l → l.FitsAt (outer.length + 1)) :
    EnvironmentsFit ({ e with role, blocks } :: outer) := by
  have hfit := h.environments
  rw [he] at hfit
  exact ⟨⟨fun b hmem => hfit.1.blocks b (hb b hmem), hr⟩, hfit.2⟩

theorem closeLabel (h : s.Shallow) (hi : s.inline? = some i) (ha : i.arguments = [])
    {item opener : Marker} (hl : i.line = .label item opener) :
    (s.closeLabel i.run.fragments).Shallow := by
  obtain ⟨hle, hgathered⟩ := h.gathered hi ha (k := 1) (by rw [hl]; rfl)
  have hlength := h.length_environments_le
  simp only [State.closeLabel]
  cases he : s.environments with
  | nil => exact h.next_none rfl trivial (Nat.zero_le _) rfl
  | cons e outer =>
    have hfit := h.environments
    rw [he] at hfit hgathered hle hlength
    refine h.next_none rfl (h.withRole he (fun _ => id) fun l hrole => ?_) hlength rfl
    -- The label goes to the open item of a list; other roles have none.
    cases hr : e.role with
    | list l' =>
      rw [hr] at hrole
      cases hrole
      exact ⟨(hfit.1.list l' hr).items, hgathered.finish (by omega)⟩
    | _ =>
      rw [hr] at hrole
      cases hrole

theorem beginItem {e : OpenEnvironment} {outer : List OpenEnvironment} {l : OpenList} (h : s.Shallow)
    (hi : s.inline? = none) (he : s.environments = e :: outer) (hl : e.role = .list l)
    (start : Nat) :
    State.Shallow { (s.finishItem e l).1 with
      cursor := s.cursor.advance
      environments := { e with
        role := .list { l with
          items := (s.finishItem e l).2
          item := { start, implicit := false } }
        blocks := [] } :: outer } := by
  have hlength := h.length_environments_le
  have hfit := h.environments
  rw [he] at hlength hfit
  obtain ⟨ds, heq, -⟩ := s.exists_finishItem_eq e l
  rw [heq]
  refine h.next_none rfl (h.withRole he (by simp) fun l' hl' => ?_) hlength hi
  cases hl'
  exact ⟨fitsAt_finishItem hfit.1 (hfit.1.list l hl) hlength, fun n hn => absurd hn List.not_mem_nil⟩

/-- The innermost environment becomes one node around what it holds, or leaves that in its place. -/
theorem closeEnvironment {e : OpenEnvironment} {outer : List OpenEnvironment} (h : s.Shallow)
    (hi : s.inline? = none) (he : s.environments = e :: outer) :
    (s.closeEnvironment e outer).Shallow := by
  have hle := h.length_environments_le
  have hfit := h.environments
  rw [he, List.length_cons] at hle
  rw [he] at hfit
  have hblocks := hfit.1.blocks
  have hclosed : ∀ ds : List Diagnostic, State.Shallow
      { s with cursor := s.cursor.advance, environments := outer, diagnostics := ds } :=
    fun ds => h.next_none rfl hfit.2 (Nat.le_of_succ_le hle) hi
  -- What is left in place stands one higher than it did inside.
  have hplace := (hclosed s.diagnostics).addBlocks fun b hb => (hblocks b hb).mono (Nat.le_succ _)
  simp only [State.closeEnvironment]
  -- In place and float, quote, list.
  split
  · exact hplace
  · exact hplace
  · refine (hclosed s.diagnostics).addBlocks (List.forall_mem_singleton.mpr ?_)
    refine Node.fitsAt_of_nests rfl hle (List.forall_mem_map.mpr fun b hb => ?_)
    exact hblocks b (List.mem_reverse.mp hb)
  · next l hl =>
    have hitems := fitsAt_finishItem (s := s) hfit.1 (hfit.1.list l hl) hle
    obtain ⟨ds, heq, -⟩ := s.exists_finishItem_eq e l
    simp only [heq]
    refine (hclosed (ds ++ s.diagnostics)).addBlocks (List.forall_mem_singleton.mpr ?_)
    refine Node.fitsAt_of_nests rfl hle (List.forall_mem_map.mpr fun item hitem => ?_)
    exact hitems item (List.mem_reverse.mp hitem)

/-- The table of an open cell with that cell finished. -/
theorem finishCell (h : s.Shallow) (hi : s.inline? = some i) (ha : i.arguments = [])
    {table : OpenTable} (hl : i.line = .cell table) :
    (s.finishCell table i.run.fragments).FitsAt (s.environments.length + 1) := by
  obtain ⟨hle, hgathered⟩ := h.gathered hi ha (k := 1) (by rw [hl]; rfl)
  exact fitsAt_finishCell ((h.inline i hi).table table hl) hgathered (by omega)

theorem closeTable (h : s.Shallow) (hi : s.inline? = some i) (ha : i.arguments = [])
    {table : OpenTable} (hl : i.line = .cell table) {rows : List TableRow}
    (hr : rows = (s.finishRow (s.finishCell table i.run.fragments)).rows.reverse)
    (start stop : Nat) :
    State.Shallow
      (({ s.warnRagged table.marker.text (TableRow.columnCount rows) rows with
          cursor := s.cursor.advance
          inline? := none } : State).addBlocks [.table (.span start stop) rows]) := by
  obtain ⟨hle, -⟩ := h.gathered hi ha (k := 1) (by rw [hl]; rfl)
  have hrows := fitsAt_finishRow (s := s) (h.finishCell hi ha hl) hle
  obtain ⟨ds, heq, -⟩ := s.exists_warnRagged_eq table.marker.text (TableRow.columnCount rows) rows
  rw [heq]
  have hblock : (Node.block (.table (.span start stop) rows)).FitsAt s.environments.length := by
    refine Node.fitsAt_of_nests rfl (by omega) (List.forall_mem_map.mpr fun r hmem => hrows r ?_)
    rwa [hr, List.mem_reverse] at hmem
  exact h.leave_addBlock (t := { s with
    cursor := s.cursor.advance
    inline? := none
    diagnostics := ds ++ s.diagnostics }) rfl rfl rfl hblock

/-! ## Inline content -/

/-- A line is begun, without arguments, one deeper or as deep as what is around it. -/
theorem begin_inline (h : s.Shallow) {line : Line} (hb : t.blocks = s.blocks)
    (he : t.environments = s.environments) (hi : t.inline? = some { line })
    (hd : s.environments.length + line.depth ≤ nestingLimit)
    (hl : ∀ table, line = .cell table → table.FitsAt (s.environments.length + 1)) : t.Shallow :=
  h.next_inline hb he hi hd ⟨hl, .empty, trivial⟩

/-- More is gathered, or braces are opened or closed. -/
theorem next_run (h : s.Shallow) (hi : s.inline? = some i) {run : Run} (hb : t.blocks = s.blocks)
    (he : t.environments = s.environments) (ht : t.inline? = some { i with run })
    (hd : s.environments.length + OpenInline.depth { i with run } ≤ nestingLimit)
    (hr : run.fragments.FitAt (s.environments.length + i.line.depth + i.arguments.length)) :
    t.Shallow :=
  have hopen := h.inline i hi
  h.next_inline hb he ht hd ⟨hopen.table, hr, hopen.arguments⟩

/-- The text of a brace goes behind what was gathered if it is kept. -/
theorem gathered_brace (h : s.Shallow) (hi : s.inline? = some i) (kept : Bool) (start stop : Nat)
    (brace : Text) :
    (if kept then i.run.fragments.pushText start stop brace else i.run.fragments).FitAt
      (s.environments.length + i.line.depth + i.arguments.length) := by
  have hgathered := (h.inline i hi).gathered
  cases kept with
  | false => exact hgathered
  | true => exact hgathered.pushText (h.length_le hi) start stop brace

/-- What an argument interrupts stays as it is. -/
theorem openArgument (h : s.Shallow) (hi : s.inline? = some i) {line : Line} {a : OpenArgument}
    (hl : line = i.line ∨ ∃ table span, i.line = .cell table ∧ line = .cell { table with span })
    (ha : a.outer = i.run) (hb : t.blocks = s.blocks) (he : t.environments = s.environments)
    (ht : t.inline? = some { line, arguments := a :: i.arguments })
    (hd : s.depth + 1 ≤ nestingLimit) : t.Shallow := by
  have hopen := h.inline i hi
  rw [State.depth_eq hi] at hd
  have hline : line.depth = i.line.depth := by
    obtain rfl | ⟨table, span, hcell, rfl⟩ := hl
    · rfl
    · rw [hcell]
      rfl
  refine h.next_inline hb he ht ?_ ⟨fun table htable => ?_, .empty, ?_⟩
  · -- The one more that may be open is the argument; its braces start anew.
    simp only [OpenInline.depth, hline, ha, List.length_nil, List.foldr_cons] at hd ⊢
    omega
  · obtain rfl | ⟨table', span, hcell, rfl⟩ := hl
    · exact hopen.table table htable
    · -- A cell that spans columns is one of the same table.
      cases htable
      exact ⟨(hopen.table table' hcell).rows, (hopen.table table' hcell).cells⟩
  · rw [hline]
    exact ⟨ha ▸ hopen.gathered, hopen.arguments⟩

/-- What comes of an argument goes behind what it interrupts. -/
theorem closeArgument (h : s.Shallow) (hi : s.inline? = some i) {a : OpenArgument}
    {arguments : List OpenArgument} (ha : i.arguments = a :: arguments) {stop : Nat}
    (hb : t.blocks = s.blocks) (he : t.environments = s.environments)
    (ht : t.inline? = some { i with
      run := { a.outer with
        fragments := State.closeArgument a.purpose i.run.fragments stop a.outer.fragments }
      arguments }) : t.Shallow := by
  have hopen := h.inline i hi
  have hgathered := hopen.gathered
  have harguments := hopen.arguments
  have hlength := h.length_le hi
  have hdepth := h.depth_le
  rw [State.depth_eq hi] at hdepth
  rw [ha] at hgathered harguments
  rw [ha, List.length_cons] at hlength
  refine h.next_inline hb he ht ?_ ⟨hopen.table, ?_, harguments.2⟩
  · simp only [OpenInline.depth, ha, List.foldr_cons] at hdepth ⊢
    omega
  · exact fitAt_closeArgument hgathered harguments.1 hlength stop

/-! ## Changes -/

/-- Every change keeps what fits fitting. -/
theorem change (h : s.Shallow) (hchange : Change ctx s t) : t.Shallow := by
  have hle := h.length_environments_le
  cases hchange with
  | skip | warn => exact h.of_same rfl rfl rfl
  | @addLeaf c b hi hb =>
    exact h.leave_addBlock (t := { s with cursor := c }) rfl rfl hi (hb.fitsAt hle)
  | beginEnvironment hi hk hc hr hd =>
    rw [State.depth_eq_of_none hi] at hd
    refine h.next_none rfl ⟨⟨?_, fun l hl => ?_⟩, h.environments⟩ hd hi
    · exact fun b hb => absurd hb List.not_mem_nil
    · obtain ⟨hitems, hitem⟩ := hr l hl
      refine ⟨by simp [hitems], ?_⟩
      rw [hitem]
      exact fun n hn => absurd hn List.not_mem_nil
  | closeEnvironment hi hk he => exact h.closeEnvironment hi he
  | beginItem hi hk he hl => exact h.beginItem hi he hl _
  | beginLabel hi he hl hb hc ho hd =>
    rw [State.depth_eq_of_none hi] at hd
    exact h.begin_inline rfl rfl rfl hd (by simp)
  | beginHeading hi hk hc ho hlevel hd =>
    rw [State.depth_eq_of_none hi] at hd
    exact h.begin_inline rfl rfl rfl hd (by simp)
  | beginParagraph hi => exact h.begin_inline rfl rfl rfl hle (by simp)
  | beginTable hi hk hc hd =>
    rw [State.depth_eq_of_none hi] at hd
    refine h.begin_inline rfl rfl rfl hd fun table htable => ?_
    cases htable
    exact ⟨by simp, by simp⟩
  | gather hi hk hr =>
    have hdepth := h.depth_le
    have hlength := h.length_le hi
    rw [State.depth_eq hi] at hdepth
    exact h.next_run hi rfl rfl rfl hdepth
      ((h.inline _ hi).gathered.pushAll hlength (hr.fitAt hlength))
  | openBrace kept hi hk hd =>
    rw [State.depth_eq hi] at hd
    refine h.next_run hi rfl rfl rfl ?_ (h.gathered_brace hi kept _ _ _)
    simp only [OpenInline.depth, List.length_cons] at hd ⊢
    omega
  | @closeBrace i b braces hi hk hb =>
    have hdepth := h.depth_le
    rw [State.depth_eq hi] at hdepth
    refine h.next_run hi rfl rfl rfl ?_ (h.gathered_brace hi b.kept _ _ _)
    simp only [OpenInline.depth, hb, List.length_cons] at hdepth ⊢
    omega
  | openArgument hi hk hl hp hc ho hu hd => exact h.openArgument hi hl rfl rfl rfl rfl hd
  | closeArgument hi hk ha => exact h.closeArgument hi ha rfl rfl rfl
  | closeParagraph hi ha hl => exact h.closeParagraph hi ha hl
  | closeHeading hi hk ha hl => exact h.closeHeading hi ha hl
  | closeLabel hi hk ha hl => exact h.closeLabel hi ha hl
  | nextCell hi hk ha hl =>
    have hcell := h.finishCell hi ha hl
    obtain ⟨hlength, -⟩ := h.gathered hi ha (k := 1) (by rw [hl]; rfl)
    refine h.begin_inline rfl rfl rfl hlength fun table htable => ?_
    cases htable
    exact ⟨hcell.rows, hcell.cells⟩
  | nextRow hi hk ha hl hc =>
    have hcell := h.finishCell hi ha hl
    obtain ⟨hlength, -⟩ := h.gathered hi ha (k := 1) (by rw [hl]; rfl)
    refine h.begin_inline rfl rfl rfl hlength fun table htable => ?_
    cases htable
    exact ⟨fitsAt_finishRow hcell hlength, by simp⟩
  | closeTable hi hk ha hl hr => exact h.closeTable hi ha hl hr _ _

end State.Shallow

end Parse

/-! ## Documents -/

variable {source : Text} {options : Options} {parsed : Parsed}

/-- Everything that is read fits under nothing. -/
theorem fitsAt_of_parseDocument (h : parseDocument source options = .ok parsed) :
    (Node.document parsed.document).FitsAt 0 := by
  obtain ⟨settings, blocks, diagnostics, -, houtcome, rfl⟩ := exists_of_parseDocument_ok h
  have hyields := Parse.yields_outcomeOf (fun _ _ => Parse.State.Shallow.change)
    (Parse.State.Shallow.initial settings source)
  rw [houtcome] at hyields
  obtain ⟨t, ht, -, -, heq⟩ := hyields
  obtain ⟨rfl, rfl⟩ := Prod.mk.inj heq
  refine Node.fitsAt_of_not_nests rfl (Nat.zero_le _) (List.forall_mem_map.mpr fun b hb => ?_)
  exact ht.blocks b (List.mem_reverse.mp hb)

/-- On no way down from the root of a document that is read are there more than 256 lists, quotes,
tables, strong and emphasized nodes. -/
theorem count_nesting_le (h : parseDocument source options = .ok parsed) {path : List Node}
    (hpath : (Node.document parsed.document :: path).IsChain fun m c => c ∈ m.children) :
    (Node.document parsed.document :: path).countP Node.nests ≤ 256 := by
  have hcount := fitsAt_of_parseDocument h path hpath
  rwa [Nat.zero_add] at hcount

/-- Is there a way down from the node over nodes of these kinds? -/
def Node.leadsOver : List NodeKind → Node → Bool
  | [], _ => true
  | k :: rest, n => n.children.any fun c => c.kind == k && c.leadsOver rest

theorem Node.exists_of_leadsOver {kinds : List NodeKind} {n : Node}
    (h : n.leadsOver kinds = true) :
    ∃ path, (n :: path).IsChain (fun m c => c ∈ m.children) ∧ path.map Node.kind = kinds := by
  induction kinds generalizing n with
  | nil => exact ⟨[], .singleton n, rfl⟩
  | cons k rest ih =>
    obtain ⟨c, hc, hk⟩ := List.any_eq_true.mp h
    obtain ⟨hkind, hrest⟩ := Bool.and_eq_true_iff.mp hk
    obtain ⟨path, hpath, hkinds⟩ := ih hrest
    refine ⟨c :: path, List.isChain_cons_cons.mpr ⟨hc, hpath⟩, ?_⟩
    rw [List.map_cons, hkinds, eq_of_beq hkind]

/-- The label of an item becomes strong text, inside of which it is emphasized. -/
theorem count_nesting_le_sample :
    let source : Text := "\\begin\x7bquote\x7d\\begin\x7bitemize\x7d\\item[\\emph\x7ba\x7d]"
      ++ "\\end\x7bitemize\x7d\\end\x7bquote\x7d"
    ∃ parsed path, parseDocument source {} = .ok parsed ∧
      (Node.document parsed.document :: path).IsChain (fun m c => c ∈ m.children) ∧
      path.map Node.kind = [.quote, .list, .listItem, .strong, .emphasis, .text] ∧
      (Node.document parsed.document :: path).countP Node.nests ≤ 256 := by
  intro source
  have hread : (Document.parse {} source).map (fun p => (Node.document p.document).leadsOver
      [.quote, .list, .listItem, .strong, .emphasis, .text]) = .ok true := by
    decide +kernel
  have hresolve : ({} : Options).resolve = .ok {} := rfl
  obtain ⟨parsed, h, hleads⟩ := exists_of_parse_map hresolve hread
  obtain ⟨path, hpath, hkinds⟩ := Node.exists_of_leadsOver hleads
  exact ⟨parsed, path, h, hpath, hkinds, count_nesting_le h hpath⟩

end LatexMarkdown
