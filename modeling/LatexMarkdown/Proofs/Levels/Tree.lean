import LatexMarkdown.Parse.Block
import LatexMarkdown.Proofs.Reports.Tally
import Mathlib.Data.List.Basic
/-!
  Headings with other ranks.

  The rank of a heading is its level and the mark that the level was moved into range; a level offset
  decides on both.  `mapRanks` gives every heading of a tree another rank and leaves everything else
  as it is.  Mapping twice is mapping once (`mapRanks_mapRanks`), and the headings of a mapped
  document are those of the document with their ranks mapped (`Document.ranks_mapRanks`).
-/
namespace LatexMarkdown

variable {P : Type}

/-! ## Ranks -/

/-- The level of a heading, and whether it was moved into range. -/
structure Rank where
  level : Number
  clamped : Bool
  deriving DecidableEq, Repr

/-- The rank of a heading whose command stands for `level`, under an offset. -/
def Rank.of (offset : Int) (level : Nat) : Rank :=
  { level := .ofNat (Parse.clampLevel (level + offset))
    clamped := Parse.clampLevel (level + offset) ≠ level + offset }

/-- The marks of a heading with the rank given. -/
def NodeInfo.withRank (i : NodeInfo P) (r : Rank) : NodeInfo P :=
  { i with flags := { i.flags with clamped := r.clamped } }

/-! ## Ranks mapped -/

mutual

/-- The same block with the ranks of its headings mapped. -/
def Block.mapRanks (f : Rank → Rank) : Block P → Block P
  | .paragraph i cs => .paragraph i cs
  | .heading i level cs =>
    .heading (i.withRank (f ⟨level, i.flags.clamped⟩)) (f ⟨level, i.flags.clamped⟩).level cs
  | .quote i bs => .quote i (Block.mapAllRanks f bs)
  | .list i ordered items => .list i ordered (ListItem.mapAllRanks f items)
  | .code i t language => .code i t language
  | .table i rows => .table i rows
  | .math i t environment => .math i t environment

/-- The same blocks with the ranks of their headings mapped. -/
def Block.mapAllRanks (f : Rank → Rank) : List (Block P) → List (Block P)
  | [] => []
  | b :: rest => b.mapRanks f :: Block.mapAllRanks f rest

/-- The same item with the ranks of its headings mapped. -/
def ListItem.mapRanks (f : Rank → Rank) : ListItem P → ListItem P
  | ⟨i, cs, bs⟩ => ⟨i, cs, Block.mapAllRanks f bs⟩

/-- The same items with the ranks of their headings mapped. -/
def ListItem.mapAllRanks (f : Rank → Rank) : List (ListItem P) → List (ListItem P)
  | [] => []
  | i :: rest => i.mapRanks f :: ListItem.mapAllRanks f rest

end

theorem Block.mapAllRanks_eq_map (f : Rank → Rank) (bs : List (Block P)) :
    Block.mapAllRanks f bs = bs.map (Block.mapRanks f) := by
  induction bs with
  | nil => rw [Block.mapAllRanks, List.map_nil]
  | cons b rest ih => rw [Block.mapAllRanks, ih, List.map_cons]

theorem ListItem.mapAllRanks_eq_map (f : Rank → Rank) (items : List (ListItem P)) :
    ListItem.mapAllRanks f items = items.map (ListItem.mapRanks f) := by
  induction items with
  | nil => rw [ListItem.mapAllRanks, List.map_nil]
  | cons i rest ih => rw [ListItem.mapAllRanks, ih, List.map_cons]

/-! ### Twice and not at all -/

mutual

theorem Block.mapRanks_mapRanks (f g : Rank → Rank) : ∀ b : Block P,
    (b.mapRanks f).mapRanks g = b.mapRanks (g ∘ f)
  | .paragraph _ _ | .code _ _ _ | .table _ _ | .math _ _ _ => by simp only [Block.mapRanks]
  | .heading _ _ _ => by simp only [Block.mapRanks]; rfl
  | .quote _ bs => by
    simp only [Block.mapRanks, Block.mapAllRanks_mapAllRanks f g bs]
  | .list _ _ items => by
    simp only [Block.mapRanks, ListItem.mapAllRanks_mapAllRanks f g items]

theorem Block.mapAllRanks_mapAllRanks (f g : Rank → Rank) : ∀ bs : List (Block P),
    Block.mapAllRanks g (Block.mapAllRanks f bs) = Block.mapAllRanks (g ∘ f) bs
  | [] => by simp only [Block.mapAllRanks]
  | b :: rest => by
    simp only [Block.mapAllRanks, Block.mapRanks_mapRanks f g b,
      Block.mapAllRanks_mapAllRanks f g rest]

theorem ListItem.mapRanks_mapRanks (f g : Rank → Rank) : ∀ i : ListItem P,
    (i.mapRanks f).mapRanks g = i.mapRanks (g ∘ f)
  | ⟨_, _, bs⟩ => by simp only [ListItem.mapRanks, Block.mapAllRanks_mapAllRanks f g bs]

theorem ListItem.mapAllRanks_mapAllRanks (f g : Rank → Rank) : ∀ items : List (ListItem P),
    ListItem.mapAllRanks g (ListItem.mapAllRanks f items) = ListItem.mapAllRanks (g ∘ f) items
  | [] => by simp only [ListItem.mapAllRanks]
  | i :: rest => by
    simp only [ListItem.mapAllRanks, ListItem.mapRanks_mapRanks f g i,
      ListItem.mapAllRanks_mapAllRanks f g rest]

end

mutual

theorem Block.mapRanks_id : ∀ b : Block P, b.mapRanks id = b
  | .paragraph _ _ | .code _ _ _ | .table _ _ | .math _ _ _ => by simp only [Block.mapRanks]
  | .heading _ _ _ => by simp only [Block.mapRanks]; rfl
  | .quote _ bs => by simp only [Block.mapRanks, Block.mapAllRanks_id bs]
  | .list _ _ items => by simp only [Block.mapRanks, ListItem.mapAllRanks_id items]

theorem Block.mapAllRanks_id : ∀ bs : List (Block P), Block.mapAllRanks id bs = bs
  | [] => by simp only [Block.mapAllRanks]
  | b :: rest => by
    simp only [Block.mapAllRanks, Block.mapRanks_id b, Block.mapAllRanks_id rest]

theorem ListItem.mapRanks_id : ∀ i : ListItem P, i.mapRanks id = i
  | ⟨_, _, bs⟩ => by simp only [ListItem.mapRanks, Block.mapAllRanks_id bs]

theorem ListItem.mapAllRanks_id : ∀ items : List (ListItem P), ListItem.mapAllRanks id items = items
  | [] => by simp only [ListItem.mapAllRanks]
  | i :: rest => by
    simp only [ListItem.mapAllRanks, ListItem.mapRanks_id i, ListItem.mapAllRanks_id rest]

end

@[simp] theorem Block.map_mapRanks (f g : Rank → Rank) (bs : List (Block P)) :
    (bs.map (mapRanks f)).map (mapRanks g) = bs.map (mapRanks (g ∘ f)) := by
  rw [← mapAllRanks_eq_map, ← mapAllRanks_eq_map, mapAllRanks_mapAllRanks, mapAllRanks_eq_map]

@[simp] theorem ListItem.map_mapRanks (f g : Rank → Rank) (items : List (ListItem P)) :
    (items.map (mapRanks f)).map (mapRanks g) = items.map (mapRanks (g ∘ f)) := by
  rw [← mapAllRanks_eq_map, ← mapAllRanks_eq_map, mapAllRanks_mapAllRanks, mapAllRanks_eq_map]

@[simp] theorem Block.map_mapRanks_id (bs : List (Block P)) : bs.map (mapRanks id) = bs := by
  rw [← mapAllRanks_eq_map, mapAllRanks_id]

/-! ## Documents -/

/-- The same document with the ranks of its headings mapped. -/
def Document.mapRanks (f : Rank → Rank) (d : Document P) : Document P :=
  { d with children := d.children.map (Block.mapRanks f) }

theorem Document.mapRanks_mapRanks (f g : Rank → Rank) (d : Document P) :
    (d.mapRanks f).mapRanks g = d.mapRanks (g ∘ f) := by
  simp only [mapRanks, Block.map_mapRanks]

theorem Document.mapRanks_id (d : Document P) : d.mapRanks id = d := by
  simp only [mapRanks, Block.map_mapRanks_id]

namespace Node

/-- The same node with the ranks of the headings from it down mapped. -/
def mapRanks (f : Rank → Rank) : Node P → Node P
  | document d => document (d.mapRanks f)
  | block b => block (b.mapRanks f)
  | listItem i => listItem (i.mapRanks f)
  | tableRow r => tableRow r
  | tableCell c => tableCell c
  | inline n => inline n

theorem children_mapRanks (f : Rank → Rank) (n : Node P) :
    (n.mapRanks f).children = n.children.map (mapRanks f) := by
  have hinlines : ∀ ns : List (Inline P), (ns.map inline).map (mapRanks f) = ns.map inline := by
    intro ns
    rw [List.map_map]
    rfl
  have hblocks : ∀ bs : List (Block P),
      (bs.map block).map (mapRanks f) = (bs.map (Block.mapRanks f)).map block := by
    intro bs
    rw [List.map_map, List.map_map]
    rfl
  cases n with
  | document d => exact (hblocks d.children).symm
  | block b =>
    cases b with
    | paragraph i cs => simp only [mapRanks, Block.mapRanks, children, hinlines]
    | heading i level cs => simp only [mapRanks, Block.mapRanks, children, hinlines]
    | quote i bs => simp only [mapRanks, Block.mapRanks, children, hblocks, Block.mapAllRanks_eq_map]
    | list i ordered items =>
      simp only [mapRanks, Block.mapRanks, children, ListItem.mapAllRanks_eq_map, List.map_map]
      rfl
    | table i rows =>
      simp only [mapRanks, Block.mapRanks, children, List.map_map]
      rfl
    | code i t language => simp only [mapRanks, Block.mapRanks, children, List.map_nil]
    | math i t environment => simp only [mapRanks, Block.mapRanks, children, List.map_nil]
  | listItem i =>
    obtain ⟨info, cs, bs⟩ := i
    simp only [mapRanks, ListItem.mapRanks, children, List.map_append, hinlines, hblocks,
      Block.mapAllRanks_eq_map]
  | tableRow r =>
    simp only [mapRanks, children, List.map_map]
    rfl
  | tableCell c => simp only [mapRanks, children, hinlines]
  | inline n => simp only [mapRanks, children, hinlines]

/-- The nodes from a mapped node down are those from the node down, mapped. -/
theorem preorder_mapRanks (f : Rank → Rank) (n : Node P) :
    (n.mapRanks f).tree.preorder = n.tree.preorder.map (mapRanks f) := by
  -- The trees of the children are smaller.
  induction hsize : sizeOf n.tree using Nat.strong_induction_on generalizing n with
  | _ size ih =>
    rw [preorder_tree, preorder_tree n, children_mapRanks, List.map_cons, List.map_flatMap,
      List.flatMap_map]
    congr 1
    refine List.flatMap_congr fun c hc => ?_
    exact ih _ (hsize ▸ sizeOf_tree_lt hc) c rfl

/-- The rank of a heading. -/
def rank? : Node P → Option Rank
  | block (.heading i level _) => some ⟨level, i.flags.clamped⟩
  | _ => none

theorem rank?_mapRanks (f : Rank → Rank) (n : Node P) : (n.mapRanks f).rank? = n.rank?.map f := by
  cases n with
  | block b => cases b <;> simp [mapRanks, Block.mapRanks, rank?, NodeInfo.withRank]
  | _ => simp [mapRanks, rank?]

end Node

/-- The ranks of the headings of a document, in document order. -/
def Document.ranks (d : Document P) : List Rank :=
  (Node.document d).tree.preorder.filterMap Node.rank?

theorem Document.ranks_mapRanks (f : Rank → Rank) (d : Document P) :
    (d.mapRanks f).ranks = d.ranks.map f := by
  have hpreorder := Node.preorder_mapRanks f (.document d)
  rw [Node.mapRanks] at hpreorder
  rw [ranks, ranks, hpreorder, List.filterMap_map, List.map_filterMap]
  exact congrArg (List.filterMap · _) (funext fun n => Node.rank?_mapRanks f n)

end LatexMarkdown
