import LatexMarkdown.Proofs.Embedding.Reading
/-!
  States seen through a frame.

  `Frame.state` moves everything that is open and finished along with the cursor.  What surrounds
  the current token, how deep it stands and what ends it is the same through the frame.
-/
namespace LatexMarkdown.Parse

namespace Frame

variable (φ : Frame)

/-! ## Everything that is open -/

/-- An open brace moved. -/
def brace (b : Brace) : Brace := { b with marker := φ.marker b.marker }

/-- Inline content moved. -/
def run (r : Run) : Run :=
  { fragments := r.fragments.mapOffsets φ.offset, braces := r.braces.map φ.brace }

/-- What an argument is for, moved. -/
def purpose : Purpose → Purpose
  | .styled command style => .styled (φ.marker command) style
  | .linkText command url => .linkText (φ.marker command) url
  | .spanning => .spanning

/-- An open argument moved. -/
def argument (a : OpenArgument) : OpenArgument :=
  { purpose := φ.purpose a.purpose, opener := φ.marker a.opener, outer := φ.run a.outer }

/-- An open table moved. -/
def table (t : OpenTable) : OpenTable :=
  { marker := φ.marker t.marker
    rows := t.rows.map (TableRow.mapOffsets φ.offset)
    rowStart := φ.offset t.rowStart
    cells := t.cells.map (TableCell.mapOffsets φ.offset)
    cellStart := φ.offset t.cellStart
    span := t.span }

/-- A line moved. -/
def line : Line → Line
  | .paragraph start => .paragraph (φ.offset start)
  | .heading command level opener => .heading (φ.marker command) level (φ.marker opener)
  | .label item opener => .label (φ.marker item) (φ.marker opener)
  | .cell t => .cell (φ.table t)

/-- Open inline content moved. -/
def content (i : OpenInline) : OpenInline :=
  { line := φ.line i.line, run := φ.run i.run, arguments := i.arguments.map φ.argument }

/-- What surrounds a token, moved. -/
def surround : Surround → Surround
  | .paragraph => .paragraph
  | .group opener => .group (φ.marker opener)
  | .label opener => .label (φ.marker opener)
  | .cell => .cell

/-- An open list moved. -/
def list (l : OpenList) : OpenList :=
  { ordered := l.ordered
    items := l.items.map (ListItem.mapOffsets φ.offset)
    item :=
      { start := φ.offset l.item.start
        implicit := l.item.implicit
        label := l.item.label.map (Inline.mapOffsets φ.offset) } }

/-- What an environment is for, moved. -/
def role : Role → Role
  | .inPlace => .inPlace
  | .float => .float
  | .quote => .quote
  | .list l => .list (φ.list l)

/-- An open environment moved. -/
def environment (e : OpenEnvironment) : OpenEnvironment :=
  { marker := φ.marker e.marker
    role := φ.role e.role
    blocks := e.blocks.map (Block.mapOffsets φ.offset) }

/-- A diagnostic moved. -/
def diagnostic (d : Diagnostic) : Diagnostic :=
  { cause := d.cause, start := φ.offset d.start, stop := φ.offset d.stop }

/-- A state moved, with the blocks and diagnostics from before. -/
def state (s : State) : State :=
  { cursor := φ.cursor s.cursor
    blocks := s.blocks.map (Block.mapOffsets φ.offset) ++ φ.blocks
    environments := s.environments.map φ.environment
    inline? := s.inline?.map φ.content
    diagnostics := s.diagnostics.map φ.diagnostic ++ φ.diagnostics }

/-! ## What reading goes by -/

@[simp] theorem cursor_state (s : State) : (φ.state s).cursor = φ.cursor s.cursor := rfl

@[simp] theorem inline?_state (s : State) : (φ.state s).inline? = s.inline?.map φ.content := rfl

@[simp] theorem environments_state (s : State) :
    (φ.state s).environments = s.environments.map φ.environment := rfl

@[simp] theorem surround_content (i : OpenInline) :
    (φ.content i).surround = φ.surround i.surround := by
  obtain ⟨line, ⟨fragments, braces⟩, arguments⟩ := i
  cases braces with
  | cons brace braces => rfl
  | nil =>
    cases arguments with
    | cons argument arguments => rfl
    | nil => cases line <;> rfl

@[simp] theorem endsAt_surround (inList : Bool) (t : Token) (r : Surround) :
    (φ.surround r).endsAt inList (φ.token t) = r.endsAt inList t := by
  cases r <;> rfl

@[simp] theorem inTable_content (i : OpenInline) : (φ.content i).inTable = i.inTable := by
  obtain ⟨line, run, arguments⟩ := i
  cases line <;> rfl

@[simp] theorem depth_content (i : OpenInline) : (φ.content i).depth = i.depth := by
  obtain ⟨line, run, arguments⟩ := i
  have hline : (φ.line line).depth = line.depth := by cases line <;> rfl
  have harguments : ∀ l : List OpenArgument,
      (l.map φ.argument).foldr (fun a n => a.outer.braces.length + 1 + n) 0
        = l.foldr (fun a n => a.outer.braces.length + 1 + n) 0 := by
    intro l
    induction l with
    | nil => rfl
    | cons a rest ih => simp [ih, argument, Frame.run]
  simp [OpenInline.depth, content, hline, harguments, Frame.run]

@[simp] theorem depth_state (s : State) : (φ.state s).depth = s.depth := by
  unfold State.depth
  cases hi : s.inline? <;> simp [hi]

@[simp] theorem isList_role (r : Role) : (φ.role r).isList = r.isList := by cases r <;> rfl

@[simp] theorem isFloat_role (r : Role) : (φ.role r).isFloat = r.isFloat := by cases r <;> rfl

@[simp] theorem inList_state (s : State) : (φ.state s).inList = s.inList := by
  unfold State.inList
  cases he : s.environments <;> simp [he, environment]

@[simp] theorem inFloat_state (s : State) : (φ.state s).inFloat = s.inFloat := by
  unfold State.inFloat
  cases he : s.environments <;> simp [he, environment]

@[simp] theorem droppedCount?_content (i : OpenInline) (name : Text) :
    (φ.content i).droppedCount? name = i.droppedCount? name := by
  have hcell : ∀ r : Surround, (φ.surround r = .cell) = (r = .cell) := by
    intro r
    cases r <;> simp [surround]
  simp only [OpenInline.droppedCount?, surround_content, hcell]

@[simp] theorem droppedCount?_state (s : State) (name : Text) :
    (φ.state s).droppedCount? name = s.droppedCount? name := by
  rw [State.droppedCount?, State.droppedCount?, inFloat_state]

/-! ## Small changes -/

theorem withFragments_content (i : OpenInline) (f : Fragments) :
    (φ.content i).withFragments (f.mapOffsets φ.offset) = φ.content (i.withFragments f) := rfl

theorem gather_state (s : State) (i : OpenInline) (c : Cursor) (f : Fragments) :
    (φ.state s).gather (φ.content i) (φ.cursor c) (f.mapOffsets φ.offset)
      = φ.state (s.gather i c f) := rfl

theorem warnAt_state (s : State) (cause : Degradation) (t : Token) :
    (φ.state s).warnAt cause (φ.token t) = φ.state (s.warnAt cause t) := rfl

theorem addBlocks_state (s : State) (blocks : List Block) :
    (φ.state s).addBlocks (blocks.map (Block.mapOffsets φ.offset))
      = φ.state (s.addBlocks blocks) := by
  unfold State.addBlocks
  cases he : s.environments with
  | nil => simp [state, he]
  | cons e outer => simp [state, he, environment]

theorem checkDepth_marker (depth : Nat) (m : Marker) :
    Follows φ (Gives id) (State.checkDepth depth m) (State.checkDepth depth (φ.marker m)) := by
  unfold State.checkDepth
  split
  · exact .error _ ⟨_, m⟩
  · exact .pure ()

end Frame

end LatexMarkdown.Parse
