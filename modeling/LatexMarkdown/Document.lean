import LatexMarkdown.Number.Arithmetic
/-!
  The document tree.

  Inline content stands in paragraphs, headings, table cells and list items; blocks stand in the
  document, in quotes and in list items.  Every node carries its source span and two marks.  `Node`
  is any node of the tree, with `Node.children` in source order.

  A tree is generic in the type of its offsets.  Reading a source gives natural ones, a tree built
  by hand may have others, and with the offsets mapped to one value, trees are compared up to them.
-/
namespace LatexMarkdown

/-- The marks of a node. -/
structure NodeFlags where
  /-- Made up where the source had nothing to read it from. -/
  synthetic : Bool := false
  /-- A heading whose level was moved into range. -/
  clamped : Bool := false
  /-- The number that a caller gave the marks as. -/
  given : Option Number := none
  deriving DecidableEq, Repr

namespace NodeFlags

/-- The marks as a number, one bit each. -/
def toNat (f : NodeFlags) : Nat := f.synthetic.toNat + 2 * f.clamped.toNat

/-- The number that the marks are shown as: the one that they were given as, or their own. -/
def toNumber (f : NodeFlags) : Number := f.given.getD (.ofNat f.toNat)

/-- The marks of a number; its other bits mean nothing and are kept. -/
def ofNumber (n : Number) : NodeFlags := ⟨n.testBit 0, n.testBit 1, some n⟩

/-- With the mark of what is made up.  Of a number given for the marks 32 bits are left. -/
def markSynthetic (f : NodeFlags) : NodeFlags :=
  { f with synthetic := true, given := f.given.map (·.setBit 0) }

theorem toNumber_ofNumber (n : Number) : (ofNumber n).toNumber = n := rfl

end NodeFlags

/-- What every node carries: its marks and its source span. -/
structure NodeInfo (P : Type := Nat) where
  flags : NodeFlags := {}
  start : P
  stop : P
  deriving DecidableEq, Repr

/-- The span from `start` up to `stop`, no marks set. -/
def NodeInfo.span {P : Type} (start stop : P) : NodeInfo P := { start, stop }

/-- Inline content. -/
inductive Inline (P : Type := Nat)
  | text (info : NodeInfo P) (text : Text)
  | emphasis (info : NodeInfo P) (children : List (Inline P))
  | strong (info : NodeInfo P) (children : List (Inline P))
  | code (info : NodeInfo P) (text : Text)
  | link (info : NodeInfo P) (destination : Text) (children : List (Inline P))
  | math (info : NodeInfo P) (text : Text)
  | hardBreak (info : NodeInfo P)
  deriving Repr

/-- A cell of a table row. -/
structure TableCell (P : Type := Nat) where
  info : NodeInfo P
  children : List (Inline P)
  deriving Repr

/-- A row of a table. -/
structure TableRow (P : Type := Nat) where
  info : NodeInfo P
  cells : List (TableCell P)
  deriving Repr

/-- The number of cells of the widest row. -/
def TableRow.columnCount {P : Type} (rows : List (TableRow P)) : Nat :=
  rows.foldl (fun n r => max n r.cells.length) 0

mutual

/-- Block content. -/
inductive Block (P : Type := Nat)
  | paragraph (info : NodeInfo P) (children : List (Inline P))
  | heading (info : NodeInfo P) (level : Number) (children : List (Inline P))
  | quote (info : NodeInfo P) (children : List (Block P))
  | list (info : NodeInfo P) (ordered : Bool) (items : List (ListItem P))
  | code (info : NodeInfo P) (text : Text) (language : Option Text)
  | table (info : NodeInfo P) (rows : List (TableRow P))
  | math (info : NodeInfo P) (text : Text) (environment : Option Text)

/-- A list item: its leading inline content and the blocks after it. -/
structure ListItem (P : Type := Nat) where
  info : NodeInfo P
  children : List (Inline P)
  blocks : List (Block P)

end

/-- A whole document.  `lineStarts` are the offsets at which source lines begin. -/
structure Document (P : Type := Nat) where
  info : NodeInfo P
  children : List (Block P)
  lineStarts : List P

/-- What a node is. -/
inductive NodeKind
  | document
  | paragraph
  | heading
  | quote
  | list
  | listItem
  | codeBlock
  | table
  | tableRow
  | tableCell
  | mathBlock
  | text
  | emphasis
  | strong
  | code
  | link
  | math
  | hardBreak
  deriving DecidableEq, Repr

namespace NodeKind

/-- All kinds. -/
def all : List NodeKind :=
  [document, paragraph, heading, quote, list, listItem, codeBlock, table, tableRow, tableCell,
   mathBlock, text, emphasis, strong, code, link, math, hardBreak]

/-- The name a kind is shown by. -/
def name : NodeKind → String
  | document => "Document"
  | paragraph => "Paragraph"
  | heading => "Heading"
  | quote => "Blockquote"
  | list => "List"
  | listItem => "ListItem"
  | codeBlock => "CodeBlock"
  | table => "Table"
  | tableRow => "TableRow"
  | tableCell => "TableCell"
  | mathBlock => "MathBlock"
  | text => "InlineText"
  | emphasis => "Emphasis"
  | strong => "Strong"
  | code => "InlineCode"
  | link => "Link"
  | math => "MathInline"
  | hardBreak => "InlineHardBreak"

/-- The kind shown by a name. -/
def ofName? (s : String) : Option NodeKind := all.find? (·.name == s)

end NodeKind

/-! ## Inline content -/

variable {P Q : Type}

namespace Inline

/-- What the node carries besides its content. -/
def info : Inline P → NodeInfo P
  | text i _ | emphasis i _ | strong i _ | code i _ | link i _ _ | math i _ | hardBreak i => i

/-- The nodes right below. -/
def children : Inline P → List (Inline P)
  | emphasis _ cs | strong _ cs | link _ _ cs => cs
  | text _ _ | code _ _ | math _ _ | hardBreak _ => []

/-- What the node is. -/
def kind : Inline P → NodeKind
  | text _ _ => .text
  | emphasis _ _ => .emphasis
  | strong _ _ => .strong
  | code _ _ => .code
  | link _ _ _ => .link
  | math _ _ => .math
  | hardBreak _ => .hardBreak

/-- Is it plain text? -/
def isText : Inline P → Bool
  | text _ _ => true
  | _ => false

/-- Is it a forced line break? -/
def isHardBreak : Inline P → Bool
  | hardBreak _ => true
  | _ => false

/-- The same node with other marks and span. -/
def withInfo (i : NodeInfo P) : Inline P → Inline P
  | text _ t => text i t
  | emphasis _ cs => emphasis i cs
  | strong _ cs => strong i cs
  | code _ t => code i t
  | link _ d cs => link i d cs
  | math _ t => math i t
  | hardBreak _ => hardBreak i

mutual

/-- The characters of a node, formatting dropped; a forced break counts as a space. -/
def plainText : Inline P → Text
  | text _ t | code _ t | math _ t => t
  | hardBreak _ => [0x20]
  | emphasis _ cs | strong _ cs | link _ _ cs => plainTextOf cs

/-- The characters of inline content, formatting dropped. -/
def plainTextOf : List (Inline P) → Text
  | [] => []
  | n :: rest => n.plainText ++ plainTextOf rest

end

end Inline

/-! ## Blocks -/

namespace Block

/-- What the node carries besides its content. -/
def info : Block P → NodeInfo P
  | paragraph i _ | heading i _ _ | quote i _ | list i _ _ => i
  | code i _ _ | table i _ | math i _ _ => i

/-- What the node is. -/
def kind : Block P → NodeKind
  | paragraph _ _ => .paragraph
  | heading _ _ _ => .heading
  | quote _ _ => .quote
  | list _ _ _ => .list
  | code _ _ _ => .codeBlock
  | table _ _ => .table
  | math _ _ _ => .mathBlock

/-- The same node with other marks and span. -/
def withInfo (i : NodeInfo P) : Block P → Block P
  | paragraph _ cs => paragraph i cs
  | heading _ l cs => heading i l cs
  | quote _ cs => quote i cs
  | list _ o items => list i o items
  | code _ t l => code i t l
  | table _ rows => table i rows
  | math _ t e => math i t e

end Block

/-- What the room for a block goes by: the level of a heading, or the rows and columns of a table. -/
inductive Extent
  | heading (level : Number)
  | table (rows columns : Nat)
  deriving DecidableEq, Repr

mutual

/-- The extents of the headings and tables in a block, in document order. -/
def Block.extents : Block P → List Extent
  | .heading _ level _ => [.heading level]
  | .table _ rows => [.table rows.length (TableRow.columnCount rows)]
  | .quote _ bs => Block.allExtents bs
  | .list _ _ items => ListItem.allExtents items
  | .paragraph _ _ | .code _ _ _ | .math _ _ _ => []

/-- The extents of the headings and tables in blocks, in document order. -/
def Block.allExtents : List (Block P) → List Extent
  | [] => []
  | b :: rest => b.extents ++ Block.allExtents rest

/-- The extents of the headings and tables in list items, in document order. -/
def ListItem.allExtents : List (ListItem P) → List Extent
  | [] => []
  | ⟨_, _, bs⟩ :: rest => Block.allExtents bs ++ ListItem.allExtents rest

end

/-! ## Any node -/

/-- Any node of a document tree. -/
inductive Node (P : Type := Nat)
  | document (d : Document P)
  | block (b : Block P)
  | listItem (i : ListItem P)
  | tableRow (r : TableRow P)
  | tableCell (c : TableCell P)
  | inline (n : Inline P)

namespace Node

/-- What the node carries besides its content. -/
def info : Node P → NodeInfo P
  | document d => d.info
  | block b => b.info
  | listItem i => i.info
  | tableRow r => r.info
  | tableCell c => c.info
  | inline n => n.info

/-- What the node is. -/
def kind : Node P → NodeKind
  | document _ => .document
  | block b => b.kind
  | listItem _ => .listItem
  | tableRow _ => .tableRow
  | tableCell _ => .tableCell
  | inline n => n.kind

/-- Where the node starts in the source. -/
def start (n : Node P) : P := n.info.start

/-- Where the node stops in the source. -/
def stop (n : Node P) : P := n.info.stop

/-- The same node with other marks and span. -/
def withInfo (i : NodeInfo P) : Node P → Node P
  | document d => document { d with info := i }
  | block b => block (b.withInfo i)
  | listItem item => listItem { item with info := i }
  | tableRow r => tableRow { r with info := i }
  | tableCell c => tableCell { c with info := i }
  | inline n => inline (n.withInfo i)

/-- The nodes right below in source order.  A list item has its inline content first, then its
blocks. -/
def children : Node P → List (Node P)
  | document d => d.children.map block
  | block (.paragraph _ cs) | block (.heading _ _ cs) => cs.map inline
  | block (.quote _ bs) => bs.map block
  | block (.list _ _ items) => items.map listItem
  | block (.table _ rows) => rows.map tableRow
  | block (.code _ _ _) | block (.math _ _ _) => []
  | listItem i => i.children.map inline ++ i.blocks.map block
  | tableRow r => r.cells.map tableCell
  | tableCell c => c.children.map inline
  | inline n => n.children.map inline

/-- The node marked as made up. -/
def markSynthetic (n : Node P) : Node P :=
  n.withInfo { n.info with flags := n.info.flags.markSynthetic }

variable [LE P] [DecidableLE P]

/-- Does the span lie in a source of the given length, the right way round? -/
def spanWithin [OfNat P 0] (sourceLength : P) (n : Node P) : Bool :=
  0 ≤ n.start && n.start ≤ n.stop && n.stop ≤ sourceLength

/-- Do the spans of the children lie within the node's own? -/
def childrenWithin (n : Node P) : Bool :=
  n.children.all fun child => n.start ≤ child.start && child.stop ≤ n.stop

end Node

/-! ## Offsets mapped -/

/-- The same with the offsets mapped. -/
def NodeInfo.mapOffsets (f : P → Q) (i : NodeInfo P) : NodeInfo Q :=
  { flags := i.flags, start := f i.start, stop := f i.stop }

mutual

/-- The same node with the offsets in it mapped. -/
def Inline.mapOffsets (f : P → Q) : Inline P → Inline Q
  | .text i t => .text (i.mapOffsets f) t
  | .emphasis i cs => .emphasis (i.mapOffsets f) (Inline.mapAllOffsets f cs)
  | .strong i cs => .strong (i.mapOffsets f) (Inline.mapAllOffsets f cs)
  | .code i t => .code (i.mapOffsets f) t
  | .link i d cs => .link (i.mapOffsets f) d (Inline.mapAllOffsets f cs)
  | .math i t => .math (i.mapOffsets f) t
  | .hardBreak i => .hardBreak (i.mapOffsets f)

/-- The same content with the offsets in it mapped. -/
def Inline.mapAllOffsets (f : P → Q) : List (Inline P) → List (Inline Q)
  | [] => []
  | n :: rest => n.mapOffsets f :: Inline.mapAllOffsets f rest

end

/-- The same cell with the offsets in it mapped. -/
def TableCell.mapOffsets (f : P → Q) (c : TableCell P) : TableCell Q :=
  { info := c.info.mapOffsets f, children := Inline.mapAllOffsets f c.children }

/-- The same row with the offsets in it mapped. -/
def TableRow.mapOffsets (f : P → Q) (r : TableRow P) : TableRow Q :=
  { info := r.info.mapOffsets f, cells := r.cells.map (TableCell.mapOffsets f) }

mutual

/-- The same block with the offsets in it mapped. -/
def Block.mapOffsets (f : P → Q) : Block P → Block Q
  | .paragraph i cs => .paragraph (i.mapOffsets f) (Inline.mapAllOffsets f cs)
  | .heading i l cs => .heading (i.mapOffsets f) l (Inline.mapAllOffsets f cs)
  | .quote i bs => .quote (i.mapOffsets f) (Block.mapAllOffsets f bs)
  | .list i o items => .list (i.mapOffsets f) o (ListItem.mapAllOffsets f items)
  | .code i t l => .code (i.mapOffsets f) t l
  | .table i rows => .table (i.mapOffsets f) (rows.map (TableRow.mapOffsets f))
  | .math i t e => .math (i.mapOffsets f) t e

/-- The same blocks with the offsets in them mapped. -/
def Block.mapAllOffsets (f : P → Q) : List (Block P) → List (Block Q)
  | [] => []
  | b :: rest => b.mapOffsets f :: Block.mapAllOffsets f rest

/-- The same item with the offsets in it mapped. -/
def ListItem.mapOffsets (f : P → Q) : ListItem P → ListItem Q
  | ⟨i, cs, bs⟩ => ⟨i.mapOffsets f, Inline.mapAllOffsets f cs, Block.mapAllOffsets f bs⟩

/-- The same items with the offsets in them mapped. -/
def ListItem.mapAllOffsets (f : P → Q) : List (ListItem P) → List (ListItem Q)
  | [] => []
  | i :: rest => i.mapOffsets f :: ListItem.mapAllOffsets f rest

end

/-- The same document with the offsets in it mapped. -/
def Document.mapOffsets (f : P → Q) (d : Document P) : Document Q :=
  { info := d.info.mapOffsets f
    children := Block.mapAllOffsets f d.children
    lineStarts := d.lineStarts.map f }

theorem Inline.mapAllOffsets_eq_map (f : P → Q) (ns : List (Inline P)) :
    Inline.mapAllOffsets f ns = ns.map (Inline.mapOffsets f) := by
  induction ns with
  | nil => rfl
  | cons n rest ih => rw [mapAllOffsets, ih, List.map_cons]

theorem Block.mapAllOffsets_eq_map (f : P → Q) (bs : List (Block P)) :
    Block.mapAllOffsets f bs = bs.map (Block.mapOffsets f) := by
  induction bs with
  | nil => rfl
  | cons b rest ih => rw [mapAllOffsets, ih, List.map_cons]

theorem ListItem.mapAllOffsets_eq_map (f : P → Q) (items : List (ListItem P)) :
    ListItem.mapAllOffsets f items = items.map (ListItem.mapOffsets f) := by
  induction items with
  | nil => rfl
  | cons i rest ih => rw [mapAllOffsets, ih, List.map_cons]

end LatexMarkdown
