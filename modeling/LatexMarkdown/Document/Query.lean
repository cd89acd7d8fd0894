import LatexMarkdown.Document
import LatexMarkdown.Tree
/-!
  Walking a document tree and asking about its nodes.

  `Node.tree` lays a node out as an ordered tree.  A `Visitor` has a method for some kinds of node
  and perhaps one for any node; `Node.walk` and `Node.walkUp` call it in the two orders.  Queries
  are walks: the innermost node at an offset, the nodes of one kind, the way from the root to a
  node.  A node is told from its equals by its address, the child indices that lead to it.
-/
namespace LatexMarkdown

/-! ## Nodes as a tree -/

variable {P : Type}

mutual

/-- The tree of inline content. -/
def Inline.tree : Inline P → Tree (Node P)
  | .text i t => .node (.inline (.text i t)) []
  | .emphasis i cs => .node (.inline (.emphasis i cs)) (Inline.trees cs)
  | .strong i cs => .node (.inline (.strong i cs)) (Inline.trees cs)
  | .code i t => .node (.inline (.code i t)) []
  | .link i d cs => .node (.inline (.link i d cs)) (Inline.trees cs)
  | .math i t => .node (.inline (.math i t)) []
  | .hardBreak i => .node (.inline (.hardBreak i)) []

/-- The trees of inline content. -/
def Inline.trees : List (Inline P) → List (Tree (Node P))
  | [] => []
  | n :: rest => Inline.tree n :: Inline.trees rest

end

/-- The tree of a table cell. -/
def TableCell.tree (c : TableCell P) : Tree (Node P) :=
  .node (.tableCell c) (Inline.trees c.children)

/-- The tree of a table row. -/
def TableRow.tree (r : TableRow P) : Tree (Node P) :=
  .node (.tableRow r) (r.cells.map TableCell.tree)

mutual

/-- The tree of a block. -/
def Block.tree : Block P → Tree (Node P)
  | .paragraph i cs => .node (.block (.paragraph i cs)) (Inline.trees cs)
  | .heading i l cs => .node (.block (.heading i l cs)) (Inline.trees cs)
  | .quote i bs => .node (.block (.quote i bs)) (Block.trees bs)
  | .list i o items => .node (.block (.list i o items)) (ListItem.trees items)
  | .code i t l => .node (.block (.code i t l)) []
  | .table i rows => .node (.block (.table i rows)) (rows.map TableRow.tree)
  | .math i t e => .node (.block (.math i t e)) []

/-- The trees of blocks. -/
def Block.trees : List (Block P) → List (Tree (Node P))
  | [] => []
  | b :: rest => Block.tree b :: Block.trees rest

/-- The tree of a list item. -/
def ListItem.tree : ListItem P → Tree (Node P)
  | ⟨i, cs, bs⟩ => .node (.listItem ⟨i, cs, bs⟩) (Inline.trees cs ++ Block.trees bs)

/-- The trees of list items. -/
def ListItem.trees : List (ListItem P) → List (Tree (Node P))
  | [] => []
  | item :: rest => ListItem.tree item :: ListItem.trees rest

end

namespace Node

/-- The tree of a node. -/
def tree : Node P → Tree (Node P)
  | document d => .node (.document d) (Block.trees d.children)
  | block b => b.tree
  | listItem i => i.tree
  | tableRow r => r.tree
  | tableCell c => c.tree
  | inline n => n.tree

theorem label_inlineTree (n : Inline P) : n.tree.label = .inline n := by
  cases n <;> simp [Inline.tree, Tree.label]

theorem label_blockTree (b : Block P) : b.tree.label = .block b := by
  cases b <;> simp [Block.tree, Tree.label]

theorem label_listItemTree (i : ListItem P) : i.tree.label = .listItem i := by
  cases i
  simp [ListItem.tree, Tree.label]

/-- The root of a node's tree is the node. -/
theorem label_tree (n : Node P) : n.tree.label = n := by
  cases n with
  | document d => rfl
  | block b => exact label_blockTree b
  | listItem i => exact label_listItemTree i
  | tableRow r => rfl
  | tableCell c => rfl
  | inline n => exact label_inlineTree n

end Node

/-! ## Visitors -/

/-- What is done at a node, given the node right above it and a state; it may leave open how the
walk goes on. -/
abbrev Visitor.Method (P σ : Type) :=
  Node P → Option (Node P) → σ → Option Visit × σ

/-- Methods for some kinds of node, and perhaps one for any node. -/
structure Visitor (P σ : Type) where
  forKind : NodeKind → Option (Visitor.Method P σ) := fun _ => none
  forAny : Option (Visitor.Method P σ) := none

namespace Visitor

variable {P σ : Type}

/-- Calls a method; one that is missing leaves everything open. -/
def call (m : Option (Method P σ)) (n : Node P) (parent : Option (Node P)) (s : σ) :
    Option Visit × σ :=
  match m with
  | some m => m n parent s
  | none => (none, s)

/-- The method of the node's kind decides; left open, the one for any node; left open again, the
walk goes on. -/
def visit (v : Visitor P σ) (n : Node P) (parent : Option (Node P)) (s : σ) : Visit × σ :=
  match call (v.forKind n.kind) n parent s with
  | (some answer, s) => (answer, s)
  | (none, s) =>
    match call v.forAny n parent s with
    | (some answer, s) => (answer, s)
    | (none, s) => (.proceed, s)

/-- A visitor that treats every node alike. -/
def all (m : Node P → σ → Visit × σ) : Visitor P σ where
  forAny := some fun n _ s => let (answer, s) := m n s; (some answer, s)

end Visitor

namespace Node

variable {P σ : Type}

/-- Walks from a node down. -/
def walk (v : Visitor P σ) (root : Node P) (s : σ) : σ := (root.tree.walkDown v.visit none s).2

/-- Walks from the leaves below a node up to it. -/
def walkUp (v : Visitor P σ) (root : Node P) (s : σ) : σ := (root.tree.walkUp v.visit none s).2

/-! ## Queries -/

/-- Does the node's span, both ends included, contain the offset? -/
def covers [LE P] [DecidableLE P] (offset : P) (n : Node P) : Bool :=
  n.start ≤ offset && offset ≤ n.stop

/-- Does the offset lie before or behind the node's span? -/
def misses [LT P] [DecidableLT P] (offset : P) (n : Node P) : Bool :=
  offset < n.start || n.stop < offset

/-- The last node in document order that contains the offset together with all nodes above it; none
where the offset lies outside the root. -/
def at? [LE P] [DecidableLE P] [LT P] [DecidableLT P] (root : Node P) (offset : P) :
    Option (Node P) :=
  if root.misses offset then none
  else
    some (root.walk (.all fun n found =>
      if n.covers offset then (.proceed, n) else (.skip, found)) root)

/-- The nodes of one kind in document order. -/
def ofKind (root : Node P) (kind : NodeKind) : List (Node P) :=
  (root.walk (.all fun n found =>
    (.proceed, if n.kind = kind then n :: found else found)) []).reverse

/-- Which of the nodes of a tree is meant: the child indices that lead to it from the root, or none
for a node outside the tree. -/
abbrev Address := Option (List Nat)

/-- The nodes from the root to the node meant, both included; none when it is not in the tree. -/
def pathTo (root : Node P) (target : Address) : List (Node P) :=
  match (root.tree.located []).search (fun x => target == some x.1.reverse) [] with
  | (true, stack) => stack.reverse.map (·.2)
  | (false, _) => []

/-- The node right above the node meant. -/
def parentOf? (root : Node P) (target : Address) : Option (Node P) :=
  (root.pathTo target).reverse[1]?

/-- The node at an address. -/
def atAddress? (root : Node P) : List Nat → Option (Node P)
  | [] => some root
  | i :: rest =>
    match root.children[i]? with
    | some child => child.atAddress? rest
    | none => none

end Node

end LatexMarkdown
