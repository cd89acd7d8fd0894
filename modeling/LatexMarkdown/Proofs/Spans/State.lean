import LatexMarkdown.Proofs.Spans.Finished
/-!
  What is open is in order.

  What an open construct holds ends before what is opened inside it begins: `Stacked` says this of
  environments, down to the blocks of the document, and `InlineLaid` of the runs of inline content.
  `InSourceOrder` says it of a whole state, together with the spans of the diagnostics.  Main
  statement: `InSourceOrder.change`, every change keeps this.
-/
namespace LatexMarkdown.Parse

open Cursor (Reaches)

variable {source : Text} {keep : Bool} {lo mid hi hi' next next' : Nat} {c d : Cursor}
  {s t : State} {i j : OpenInline}

/-! ## Diagnostics -/

/-- A span the right way round in the source. -/
def InSource (source : Text) (start stop : Nat) : Prop := start ≤ stop ∧ stop ≤ source.length

theorem Tiled.inSource (h : Tiled source keep c) :
    InSource source c.current.start c.current.stop := ⟨h.start_le_stop, h.stop_le⟩

/-- The spans of diagnostics. -/
def Reported (source : Text) (diagnostics : List Diagnostic) : Prop :=
  ∀ d ∈ diagnostics, InSource source d.start d.stop

/-- More is reported. -/
theorem Reported.append {ds ds' : List Diagnostic} (h : Reported source ds)
    (h' : Reported source ds') : Reported source (ds ++ ds') := fun d hd =>
  (List.mem_append.mp hd).elim (h d) (h' d)

@[simp] theorem State.diagnostics_addBlocks (s : State) (blocks : List Block) :
    (s.addBlocks blocks).diagnostics = s.diagnostics := by
  unfold addBlocks
  split <;> rfl

/-! ## Environments -/

/-- The blocks of an open environment begin from `mid` on; in a list they begin behind the label of
the open item. -/
def Role.Begins (source : Text) (keep : Bool) (start mid hi : Nat) : Role → Prop
  | .list l => ListLaid source keep start mid hi l
  | _ => start ≤ mid

/-- What an open environment holds ends by `hi`, and what comes next may begin from `next` on. -/
structure EnvironmentLaid (source : Text) (keep : Bool) (hi next : Nat) (e : OpenEnvironment) :
    Prop where
  marker : InSource source e.marker.token.start e.marker.token.stop
  blocks : ∃ mid ≤ next, e.role.Begins source keep e.marker.token.start mid hi ∧
    Laid source keep mid hi (e.blocks.reverse.map .block)

/-- The open environments, the innermost first, and below them the blocks of the document.  What an
environment holds ends where the next one inside it begins. -/
def Stacked (source : Text) (keep : Bool) (blocks : List Block) :
    Nat → Nat → List OpenEnvironment → Prop
  | hi, _, [] => Laid source keep 0 hi (blocks.reverse.map .block)
  | hi, next, e :: outer => EnvironmentLaid source keep hi next e ∧
      Stacked source keep blocks e.marker.token.start e.marker.token.start outer

theorem Role.Begins.mono {role : Role} {start : Nat}
    (h : role.Begins source keep start mid hi) (hhi : hi ≤ hi') :
    role.Begins source keep start mid hi' := by
  cases role with
  | list l => exact ListLaid.mono h hhi
  | _ => exact h

theorem Stacked.mono {blocks : List Block} {environments : List OpenEnvironment}
    (h : Stacked source keep blocks hi next environments) (hhi : hi ≤ hi') (hnext : next ≤ next') :
    Stacked source keep blocks hi' next' environments := by
  cases environments with
  | nil => exact Laid.mono_right h hhi
  | cons e outer =>
    obtain ⟨⟨hmarker, mid, hmid, hbegins, hblocks⟩, houter⟩ := h
    exact ⟨⟨hmarker, mid, Nat.le_trans hmid hnext, hbegins.mono hhi,
      hblocks.mono_right hhi⟩, houter⟩

/-- Blocks are added behind those that the innermost environment holds. -/
theorem Stacked.addBlocks {blocks : List Block}
    (h : Stacked source keep s.blocks hi next s.environments) (hhi : hi ≤ next)
    (hblocks : Laid source keep next hi' (blocks.reverse.map .block)) (hle : next ≤ hi')
    (hnext : next ≤ next') :
    Stacked source keep (s.addBlocks blocks).blocks hi' next' (s.addBlocks blocks).environments := by
  unfold State.addBlocks
  cases henv : s.environments with
  | nil =>
    -- They are blocks of the document.
    rw [henv] at h
    have hall := (Laid.mono_right h hhi).append hblocks (Nat.zero_le _) hle
    simpa [Stacked] using hall
  | cons e outer =>
    rw [henv] at h
    obtain ⟨⟨hmarker, mid, hmid, hbegins, hheld⟩, houter⟩ := h
    have hall := (hheld.mono_right hhi).append hblocks hmid hle
    refine ⟨⟨hmarker, mid, Nat.le_trans hmid hnext, hbegins.mono (Nat.le_trans hhi hle), ?_⟩,
      houter⟩
    simpa using hall

/-! ## Inline content -/

/-- Where a line begins. -/
def Line.start : Line → Nat
  | .paragraph start => start
  | .heading command _ _ => command.token.start
  | .label _ opener => opener.token.start
  | .cell table => table.marker.token.start

/-- Where the content of a line begins. -/
def Line.contentStart : Line → Nat
  | .cell table => table.cellStart
  | line => line.start

/-- Where an argument begins: with its command, or else with its brace. -/
def OpenArgument.start (a : OpenArgument) : Nat :=
  (a.purpose.command?.getD a.opener).token.start

/-- Where the innermost run of inline content begins. -/
def runStart (lo : Nat) : List OpenArgument → Nat
  | [] => lo
  | a :: _ => a.start

/-- The runs that arguments interrupt end where the arguments begin. -/
def Interrupted (source : Text) (keep : Bool) (lo : Nat) : List OpenArgument → Prop
  | [] => True
  | a :: rest => runStart lo rest ≤ a.start ∧
      Laid source keep (runStart lo rest) a.start (a.outer.fragments.toList.map .inline) ∧
      Interrupted source keep lo rest

/-- What a line holds besides inline content.  A label comes before the blocks of its item. -/
def LineLaid (source : Text) (keep : Bool) (c : Cursor) (environments : List OpenEnvironment) :
    Line → Prop
  | .paragraph _ => True
  | .heading command _ _ => InSource source command.token.start command.token.stop
  | .label _ _ => ∀ e ∈ environments.head?, e.role.isList = true → e.blocks = []
  | .cell table => TableLaid source keep c table

/-- Inline content: what was gathered ends where the cursor stands, and what it interrupts ends where
it begins. -/
structure InlineLaid (source : Text) (keep : Bool) (c : Cursor)
    (environments : List OpenEnvironment) (i : OpenInline) : Prop where
  line : LineLaid source keep c environments i.line
  interrupted : Interrupted source keep i.line.contentStart i.arguments
  le : runStart i.line.contentStart i.arguments ≤ c.current.start
  content : Laid source keep (runStart i.line.contentStart i.arguments) c.lastStop
    (i.run.fragments.toList.map .inline)

/-! ## States -/

/-- Where the block that comes next begins: at the current token, or where the open line does. -/
def State.nextStart (s : State) : Nat :=
  match s.inline? with
  | none => s.cursor.current.start
  | some i => i.line.start

theorem State.nextStart_of_none (hi : s.inline? = none) :
    s.nextStart = s.cursor.current.start := by
  rw [nextStart, hi]

theorem State.nextStart_of_some (hi : s.inline? = some i) : s.nextStart = i.line.start := by
  rw [nextStart, hi]

/-- Everything that a state holds stands in source order. -/
structure InSourceOrder (source : Text) (keep : Bool) (s : State) : Prop where
  tiled : Tiled source keep s.cursor
  reported : Reported source s.diagnostics
  nextStart_le : s.nextStart ≤ s.cursor.current.start
  stacked : ∃ hi ≤ s.cursor.lastStop, hi ≤ s.nextStart ∧
    Stacked source keep s.blocks hi s.nextStart s.environments
  inline : ∀ i ∈ s.inline?, InlineLaid source keep s.cursor s.environments i

/-! ## Moving on -/

theorem LineLaid.reaches {environments : List OpenEnvironment} {line : Line}
    (h : LineLaid source keep c environments line) (hc : Tiled source keep c)
    (hd : c.Reaches d) : LineLaid source keep d environments line := by
  cases line with
  | cell table => exact TableLaid.reaches h hc hd
  | _ => exact h

namespace InlineLaid

variable {environments : List OpenEnvironment}

/-- The cursor moves on, and something is gathered. -/
theorem gather (h : InlineLaid source keep c environments i) (hc : Tiled source keep c)
    (hd : c.Reaches d) {run : Run}
    (hrun : Laid source keep (runStart i.line.contentStart i.arguments) d.lastStop
      (run.fragments.toList.map .inline)) :
    InlineLaid source keep d environments { i with run } where
  line := h.line.reaches hc hd
  interrupted := h.interrupted
  le := Nat.le_trans h.le (hc.start_le_start hd)
  content := hrun

/-- A line is begun. -/
theorem begin {line : Line} (hline : LineLaid source keep c environments line)
    (hle : line.contentStart ≤ c.current.start) :
    InlineLaid source keep c environments { line } :=
  ⟨hline, trivial, hle, .nil⟩

end InlineLaid

namespace InSourceOrder

/-- Between blocks. -/
theorem of_none (hc : Tiled source keep t.cursor) (hr : Reported source t.diagnostics)
    (hi : t.inline? = none)
    (hst : Stacked source keep t.blocks t.cursor.lastStop t.cursor.current.start t.environments) :
    InSourceOrder source keep t := by
  have hnext := State.nextStart_of_none hi
  exact ⟨hc, hr, Nat.le_of_eq hnext, ⟨_, Nat.le_refl _, hnext ▸ hc.lastStop_le, hnext ▸ hst⟩,
    by simp [hi]⟩

theorem stacked_of_none (h : InSourceOrder source keep s) (hi : s.inline? = none) :
    Stacked source keep s.blocks s.cursor.lastStop s.cursor.current.start s.environments := by
  obtain ⟨hi', hle, -, hst⟩ := h.stacked
  exact hst.mono hle (Nat.le_of_eq (State.nextStart_of_none hi))

/-- Inside a line. -/
theorem of_some (hc : Tiled source keep t.cursor) (hr : Reported source t.diagnostics)
    (hi : t.inline? = some i) (hle : i.line.start ≤ t.cursor.current.start)
    (hst : ∃ hi ≤ t.cursor.lastStop, hi ≤ i.line.start ∧
      Stacked source keep t.blocks hi i.line.start t.environments)
    (hlaid : InlineLaid source keep t.cursor t.environments i) : InSourceOrder source keep t := by
  have hnext := State.nextStart_of_some hi
  refine ⟨hc, hr, hnext ▸ hle, hnext ▸ hst, fun j hj => ?_⟩
  rw [hi] at hj
  exact Option.some.inj hj ▸ hlaid

/-- The cursor moves on inside a line. -/
theorem next_inline (h : InSourceOrder source keep s) (hi : s.inline? = some i)
    (hd : s.cursor.Reaches d) (hstart : j.line.start = i.line.start)
    (hj : InlineLaid source keep d s.environments j) :
    InSourceOrder source keep { s with cursor := d, inline? := some j } := by
  obtain ⟨hi', hle, hnext, hst⟩ := h.stacked
  have hline : s.nextStart = j.line.start := hstart ▸ State.nextStart_of_some hi
  have hmoved := h.tiled.start_le_start hd
  refine .of_some (h.tiled.reaches hd) h.reported rfl (hline ▸ ?_) ⟨hi', ?_, hline ▸ hnext, ?_⟩ hj
  · exact Nat.le_trans h.nextStart_le hmoved
  · exact Nat.le_trans hle (h.tiled.lastStop_le_lastStop hd)
  · exact hline ▸ hst

/-- A line is begun. -/
theorem begin_inline (h : InSourceOrder source keep s) (hi : s.inline? = none)
    (hd : s.cursor.Reaches d) {line : Line} (hstart : s.cursor.current.start ≤ line.start)
    (hle : line.start ≤ d.current.start) (hcontent : line.contentStart ≤ d.current.start)
    (hline : LineLaid source keep d s.environments line) :
    InSourceOrder source keep { s with cursor := d, inline? := some { line } } := by
  have hst := (h.stacked_of_none hi).mono (Nat.le_refl _) hstart
  exact .of_some (h.tiled.reaches hd) h.reported rfl hle
    ⟨_, h.tiled.lastStop_le_lastStop hd, Nat.le_trans h.tiled.lastStop_le hstart, hst⟩
    (.begin hline hcontent)

/-- Blocks are added where a block comes next. -/
theorem addBlocks (h : InSourceOrder source keep s) (hblocks : t.blocks = s.blocks)
    (henvironments : t.environments = s.environments) (hi : t.inline? = none)
    (hd : s.cursor.Reaches t.cursor) (hr : Reported source t.diagnostics) {blocks : List Block}
    (hlaid : Laid source keep s.nextStart t.cursor.lastStop (blocks.reverse.map .block))
    (hle : s.nextStart ≤ t.cursor.lastStop) : InSourceOrder source keep (t.addBlocks blocks) := by
  obtain ⟨hi', -, hnext, hst⟩ := h.stacked
  have hc := h.tiled.reaches hd
  rw [← hblocks, ← henvironments] at hst
  refine .of_none (by simpa using hc) (by simpa using hr) (by simpa using hi) ?_
  have hadded := hst.addBlocks hnext hlaid hle (Nat.le_trans hle hc.lastStop_le)
  simpa using hadded

/-- A block is added that spans what was read since a block comes next. -/
theorem addBlock {start : Nat} (h : InSourceOrder source keep s) (hstart : s.nextStart = start)
    (hblocks : t.blocks = s.blocks) (henvironments : t.environments = s.environments)
    (hi : t.inline? = none) (hd : s.cursor.Reaches t.cursor)
    (hr : Reported source t.diagnostics) {b : Block} (hb : b.info.start = start)
    (hb' : b.info.stop = t.cursor.lastStop) (hle : start ≤ t.cursor.lastStop)
    (hlaid : Laid source keep start t.cursor.lastStop (Node.block b).children) :
    InSourceOrder source keep (t.addBlocks [b]) := by
  subst hstart
  have hend := (h.tiled.reaches hd).lastStop_le_length
  exact h.addBlocks hblocks henvironments hi hd hr (.singleton hb hb' hle hend hlaid) hle

/-- Something is reported. -/
theorem warn (h : InSourceOrder source keep s) {start stop : Nat} (hspan : InSource source start stop)
    (cause : Degradation) : InSourceOrder source keep (s.warn cause start stop) :=
  { h with
    reported := by
      intro d hd
      rcases List.mem_cons.mp hd with rfl | hd
      · exact hspan
      · exact h.reported d hd }

end InSourceOrder

end LatexMarkdown.Parse
