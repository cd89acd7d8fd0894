import LatexMarkdown.Proofs.Making
/-!
  What a tree has to be reported for.

  `Node.degraded` lists what a single node has to be reported for, and `Diagnostic.degraded` what a
  diagnostic reports, both by their places.  `Node.tally` goes through all nodes from a node down.
  Inline content counts for nothing, so the tally of a block comes from the blocks in it
  (`tally_quote`, `tally_list`, `tally_listItem`).
-/
namespace LatexMarkdown

variable {P : Type}

/-! ## Nodes and diagnostics -/

namespace Node

/-- Is it a heading whose level was moved into range? -/
def isClamped : Node P → Bool
  | block (.heading i _ _) => i.flags.clamped
  | _ => false

/-- Is it a list whose first item was made up? -/
def beginsMadeUp : Node P → Bool
  | block (.list _ _ items) => items.head?.any (·.info.flags.synthetic)
  | _ => false

/-- The rows of a table that have fewer cells than its widest row. -/
def raggedRows : Node P → List (TableRow P)
  | block (.table _ rows) => rows.filter (·.cells.length < TableRow.columnCount rows)
  | _ => []

end Node

/-- What has to be reported, by its place. -/
inductive Degraded
  | heading (start : Nat)
  | list (start : Nat)
  | row (start stop : Nat)
  deriving DecidableEq

namespace Degraded

/-- Is it a list? -/
def isList : Degraded → Bool
  | list _ => true
  | _ => false

def heading? : Degraded → Option Nat
  | heading start => some start
  | _ => none

def list? : Degraded → Option Nat
  | list start => some start
  | _ => none

def row? : Degraded → Option (Nat × Nat)
  | row start stop => some (start, stop)
  | _ => none

end Degraded

/-- What a node has to be reported for, what is below it left out. -/
def Node.degraded (n : Node) : List Degraded :=
  (if n.isClamped then [.heading n.start] else [])
    ++ (if n.beginsMadeUp then [.list n.start] else [])
    ++ n.raggedRows.map fun r => .row r.info.start r.info.stop

/-- What a diagnostic about the structure of a document reports. -/
def Diagnostic.degraded (d : Diagnostic) : List Degraded :=
  match d.cause with
  | .headingLevelClamped _ _ _ => [.heading d.start]
  | .implicitListItem _ => [.list d.start]
  | .raggedTableRow _ _ _ => [.row d.start d.stop]
  | _ => []

theorem flatMap_ite_singleton {α β : Type} (p : α → Bool) (f : α → β) (l : List α) :
    (l.flatMap fun a => if p a then [f a] else []) = (l.filter p).map f := by
  induction l with
  | nil => rfl
  | cons a rest ih =>
    rw [List.flatMap_cons, ih, List.filter_cons]
    cases p a <;> rfl

/-! ### One kind at a time -/

namespace Node

theorem headings_degraded (ns : List Node) :
    (ns.flatMap degraded).filterMap Degraded.heading? = (ns.filter isClamped).map start := by
  rw [List.filterMap_flatMap, ← flatMap_ite_singleton]
  refine congrArg (List.flatMap · ns) (funext fun n => ?_)
  simp only [degraded, List.filterMap_append, List.filterMap_map, Function.comp_def,
    Degraded.heading?]
  cases n.isClamped <;> cases n.beginsMadeUp <;> simp [List.filterMap_cons, Degraded.heading?]

theorem lists_degraded (ns : List Node) :
    (ns.flatMap degraded).filterMap Degraded.list? = (ns.filter beginsMadeUp).map start := by
  rw [List.filterMap_flatMap, ← flatMap_ite_singleton]
  refine congrArg (List.flatMap · ns) (funext fun n => ?_)
  simp only [degraded, List.filterMap_append, List.filterMap_map, Function.comp_def,
    Degraded.list?]
  cases n.isClamped <;> cases n.beginsMadeUp <;> simp [List.filterMap_cons, Degraded.list?]

theorem rows_degraded (ns : List Node) :
    (ns.flatMap degraded).filterMap Degraded.row?
      = (ns.flatMap raggedRows).map fun r => (r.info.start, r.info.stop) := by
  rw [List.filterMap_flatMap, List.map_flatMap]
  refine congrArg (List.flatMap · ns) (funext fun n => ?_)
  simp only [degraded, List.filterMap_append, List.filterMap_map, Function.comp_def,
    Degraded.row?]
  cases n.isClamped <;> cases n.beginsMadeUp <;> simp [List.filterMap_cons, Degraded.row?]

end Node

namespace Diagnostic

theorem headings_degraded (ds : List Diagnostic) :
    (ds.flatMap degraded).filterMap Degraded.heading?
      = (ds.filter (·.cause.code == "heading-level-clamped")).map start := by
  rw [List.filterMap_flatMap, ← flatMap_ite_singleton]
  refine congrArg (List.flatMap · ds) (funext fun d => ?_)
  cases hcause : d.cause <;> simp [degraded, hcause, Degradation.code, Degraded.heading?]

theorem lists_degraded (ds : List Diagnostic) :
    (ds.flatMap degraded).filterMap Degraded.list?
      = (ds.filter (·.cause.code == "implicit-list-item")).map start := by
  rw [List.filterMap_flatMap, ← flatMap_ite_singleton]
  refine congrArg (List.flatMap · ds) (funext fun d => ?_)
  cases hcause : d.cause <;> simp [degraded, hcause, Degradation.code, Degraded.list?]

theorem rows_degraded (ds : List Diagnostic) :
    (ds.flatMap degraded).filterMap Degraded.row?
      = (ds.filter (·.cause.code == "ragged-table-row")).map fun d => (d.start, d.stop) := by
  rw [List.filterMap_flatMap, ← flatMap_ite_singleton]
  refine congrArg (List.flatMap · ds) (funext fun d => ?_)
  cases hcause : d.cause <;> simp [degraded, hcause, Degradation.code, Degraded.row?]

/-- What does not have to do with the structure of a document says nothing about its nodes. -/
theorem degraded_of_category {d : Diagnostic} (h : d.cause.category ≠ "structure") :
    d.degraded = [] := by
  cases hcause : d.cause with
  | malformedEscape | unknownCommand | unknownEnvironment => simp [degraded, hcause]
  | _ => exact absurd (by rw [hcause]; rfl) h

end Diagnostic

/-! ## Trees -/

theorem Tree.preorderOf_eq_flatMap {α : Type} (ts : List (Tree α)) :
    preorderOf ts = ts.flatMap preorder := by
  induction ts with
  | nil => rfl
  | cons t rest ih => rw [preorderOf, ih, List.flatMap_cons]

namespace Node

/-- In document order a node comes first, and then what is below it. -/
theorem preorder_tree (n : Node P) :
    n.tree.preorder = n :: n.children.flatMap fun c => c.tree.preorder := by
  have hpreorder : ∀ t : Tree (Node P), t.preorder = t.label :: t.children.flatMap Tree.preorder := by
    intro t
    cases t with
    | node a ts => rw [Tree.preorder, Tree.preorderOf_eq_flatMap]; rfl
  rw [hpreorder, label_tree, children_tree, List.flatMap_map]

/-- What has to be reported from a node down, in document order. -/
def tally (n : Node) : List Degraded := n.tree.preorder.flatMap degraded

theorem tally_eq (n : Node) : n.tally = n.degraded ++ n.children.flatMap tally := by
  rw [tally, preorder_tree, List.flatMap_cons, List.flatMap_assoc]
  rfl

/-- Inline content is nothing to report. -/
theorem tally_inline (n : Inline) : (Node.inline n).tally = [] := by
  -- Only inline nodes are below an inline node.
  have hall := forall_preorder (p := fun m : Node => ∃ k, m = .inline k) (n := .inline n) ?_ ⟨n, rfl⟩
  · refine List.flatMap_eq_nil_iff.mpr fun m hm => ?_
    obtain ⟨k, rfl⟩ := hall m hm
    rfl
  · rintro _ ⟨k, rfl⟩ c hc
    obtain ⟨m, -, rfl⟩ := List.mem_map.mp hc
    exact ⟨m, rfl⟩

theorem tally_content (cs : List Inline) : (cs.map inline).flatMap tally = [] := by
  refine List.flatMap_eq_nil_iff.mpr fun c hc => ?_
  obtain ⟨n, -, rfl⟩ := List.mem_map.mp hc
  exact tally_inline n

theorem tally_paragraph (i : NodeInfo) (cs : List Inline) :
    (block (.paragraph i cs)).tally = [] := by
  rw [tally_eq, children, tally_content]
  rfl

theorem tally_heading (i : NodeInfo) (level : Number) (cs : List Inline) :
    (block (.heading i level cs)).tally = if i.flags.clamped then [.heading i.start] else [] := by
  rw [tally_eq, children, tally_content, List.append_nil]
  show (if i.flags.clamped then [Degraded.heading i.start] else []) ++ [] ++ [] = _
  rw [List.append_nil, List.append_nil]

theorem tally_quote (i : NodeInfo) (bs : List Block) :
    (block (.quote i bs)).tally = bs.flatMap fun b => (block b).tally := by
  rw [tally_eq, children, List.flatMap_map]
  rfl

theorem tally_listItem (item : ListItem) :
    (listItem item).tally = item.blocks.flatMap fun b => (block b).tally := by
  rw [tally_eq, children, List.flatMap_append, tally_content, List.flatMap_map]
  rfl

/-- What the items of a list that starts at `start` have to be reported for, with the list. -/
def tallyItems (start : Nat) (items : List ListItem) : List Degraded :=
  (if items.head?.any (·.info.flags.synthetic) then [.list start] else [])
    ++ items.flatMap fun item => (listItem item).tally

theorem tally_list (i : NodeInfo) (ordered : Bool) (items : List ListItem) :
    (block (.list i ordered items)).tally = tallyItems i.start items := by
  rw [tally_eq, children, List.flatMap_map]
  show [] ++ (if items.head?.any (·.info.flags.synthetic) then [Degraded.list i.start] else [])
    ++ [] ++ _ = _
  rw [List.append_nil]
  rfl

/-- An item that is given adds what is below it. -/
theorem tallyItems_concat (start : Nat) (items : List ListItem) {item : ListItem}
    (h : item.info.flags.synthetic = false) :
    tallyItems start (items ++ [item]) = tallyItems start items ++ (listItem item).tally := by
  rw [tallyItems, tallyItems, List.flatMap_append, List.flatMap_singleton, List.append_assoc]
  cases items with
  | nil => simp [h]
  | cons first rest => rfl

theorem tally_table (i : NodeInfo) (rows : List TableRow) :
    (block (.table i rows)).tally
      = (rows.filter (·.cells.length < TableRow.columnCount rows)).map
          fun r => .row r.info.start r.info.stop := by
  have hrows : (rows.map tableRow).flatMap tally = [] := by
    refine List.flatMap_eq_nil_iff.mpr fun n hn => ?_
    obtain ⟨r, -, rfl⟩ := List.mem_map.mp hn
    rw [tally_eq]
    refine List.append_eq_nil_iff.mpr ⟨rfl, List.flatMap_eq_nil_iff.mpr fun n hn => ?_⟩
    obtain ⟨c, -, rfl⟩ := List.mem_map.mp hn
    rw [tally_eq, children, tally_content]
    rfl
  rw [tally_eq, children, hrows, List.append_nil]
  rfl

end Node

end LatexMarkdown
