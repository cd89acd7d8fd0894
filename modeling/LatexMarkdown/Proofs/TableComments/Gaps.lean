import LatexMarkdown.Proofs.TableComments.Content
/-!
  How many spaces a tree has.

  Spaces and line breaks that are put into a tree are counted by `Document.gaps`.  So two trees of which
  the first is the second with spaces put in are the same, but for their places, exactly where they have
  as many (`Document.mapOffsets_eq_iff_gaps`).
-/
namespace LatexMarkdown

variable {P Q : Type}

/-! ## Counting -/

/-- How many spaces and parts of line breaks a text has. -/
def Text.gaps (t : Text) : Nat := t.countP CodeUnit.isGap

mutual

/-- How many spaces and parts of line breaks the texts of a node have. -/
def Inline.gaps : Inline P → Nat
  | .text _ t | .code _ t | .math _ t => t.gaps
  | .hardBreak _ => 0
  | .emphasis _ cs | .strong _ cs => Inline.allGaps cs
  | .link _ url cs => url.gaps + Inline.allGaps cs

/-- How many spaces and parts of line breaks the texts of inline content have. -/
def Inline.allGaps : List (Inline P) → Nat
  | [] => 0
  | n :: rest => n.gaps + Inline.allGaps rest

end

/-- How many spaces and parts of line breaks the texts of cells have. -/
def TableCell.allGaps : List (TableCell P) → Nat
  | [] => 0
  | c :: rest => Inline.allGaps c.children + TableCell.allGaps rest

/-- How many spaces and parts of line breaks the texts of rows have. -/
def TableRow.allGaps : List (TableRow P) → Nat
  | [] => 0
  | r :: rest => TableCell.allGaps r.cells + TableRow.allGaps rest

mutual

/-- How many spaces and parts of line breaks the texts of a block have, code apart. -/
def Block.gaps : Block P → Nat
  | .paragraph _ cs | .heading _ _ cs => Inline.allGaps cs
  | .quote _ bs => Block.allGaps bs
  | .list _ _ items => ListItem.allGaps items
  | .code _ _ _ => 0
  | .table _ rows => TableRow.allGaps rows
  | .math _ t _ => t.gaps

/-- How many spaces and parts of line breaks the texts of blocks have, code apart. -/
def Block.allGaps : List (Block P) → Nat
  | [] => 0
  | b :: rest => b.gaps + Block.allGaps rest

/-- How many spaces and parts of line breaks the texts of list items have, code apart. -/
def ListItem.allGaps : List (ListItem P) → Nat
  | [] => 0
  | ⟨_, cs, bs⟩ :: rest => Inline.allGaps cs + Block.allGaps bs + ListItem.allGaps rest

end

/-- How many spaces and parts of line breaks the texts of a document have, code apart. -/
def Document.gaps (d : Document P) : Nat := Block.allGaps d.children

/-! Places do not count. -/

mutual

theorem Inline.gaps_mapOffsets (f : P → Q) : ∀ n : Inline P, (n.mapOffsets f).gaps = n.gaps
  | .text _ _ | .code _ _ | .math _ _ | .hardBreak _ => rfl
  | .emphasis _ cs | .strong _ cs => Inline.allGaps_mapAllOffsets f cs
  | .link _ url cs => congrArg (url.gaps + ·) (Inline.allGaps_mapAllOffsets f cs)

theorem Inline.allGaps_mapAllOffsets (f : P → Q) :
    ∀ ns : List (Inline P), Inline.allGaps (Inline.mapAllOffsets f ns) = Inline.allGaps ns
  | [] => rfl
  | n :: rest => by
    rw [Inline.mapAllOffsets, Inline.allGaps, Inline.allGaps, Inline.gaps_mapOffsets,
      Inline.allGaps_mapAllOffsets]

end

theorem TableCell.allGaps_map (f : P → Q) (cells : List (TableCell P)) :
    allGaps (cells.map (TableCell.mapOffsets f)) = allGaps cells := by
  induction cells with
  | nil => rfl
  | cons c rest ih =>
    rw [List.map_cons, allGaps, allGaps, ih, mapOffsets, Inline.allGaps_mapAllOffsets]

theorem TableRow.allGaps_map (f : P → Q) (rows : List (TableRow P)) :
    allGaps (rows.map (TableRow.mapOffsets f)) = allGaps rows := by
  induction rows with
  | nil => rfl
  | cons r rest ih => rw [List.map_cons, allGaps, allGaps, ih, mapOffsets, TableCell.allGaps_map]

mutual

theorem Block.gaps_mapOffsets (f : P → Q) : ∀ b : Block P, (b.mapOffsets f).gaps = b.gaps
  | .paragraph _ cs | .heading _ _ cs => Inline.allGaps_mapAllOffsets f cs
  | .quote _ bs => Block.allGaps_mapAllOffsets f bs
  | .list _ _ items => ListItem.allGaps_mapAllOffsets f items
  | .code _ _ _ | .math _ _ _ => rfl
  | .table _ rows => TableRow.allGaps_map f rows

theorem Block.allGaps_mapAllOffsets (f : P → Q) :
    ∀ bs : List (Block P), Block.allGaps (Block.mapAllOffsets f bs) = Block.allGaps bs
  | [] => rfl
  | b :: rest => by
    rw [Block.mapAllOffsets, Block.allGaps, Block.allGaps, Block.gaps_mapOffsets,
      Block.allGaps_mapAllOffsets]

theorem ListItem.allGaps_mapAllOffsets (f : P → Q) :
    ∀ items : List (ListItem P),
      ListItem.allGaps (ListItem.mapAllOffsets f items) = ListItem.allGaps items
  | [] => rfl
  | ⟨_, cs, bs⟩ :: rest => by
    rw [ListItem.mapAllOffsets, ListItem.mapOffsets, ListItem.allGaps, ListItem.allGaps,
      Inline.allGaps_mapAllOffsets, Block.allGaps_mapAllOffsets, ListItem.allGaps_mapAllOffsets]

end

theorem Document.gaps_mapOffsets (f : P → Q) (d : Document P) : (d.mapOffsets f).gaps = d.gaps :=
  Block.allGaps_mapAllOffsets f d.children

/-! ## What is the same where the counts are -/

/-- The second count is at most the first one, and where they are the same, so are the things that are
counted. -/
structure SameAtCount {α : Type} (n n' : Nat) (x x' : α) : Prop where
  le : n' ≤ n
  eq : n' = n → x' = x

namespace SameAtCount

variable {α β γ : Type} {m m' n n' : Nat} {x x' : α} {y y' : β}

theorem refl (n : Nat) (x : α) : SameAtCount n n x x := ⟨n.le_refl, fun _ => rfl⟩

theorem map (h : SameAtCount n n' x x') (f : α → β) : SameAtCount n n' (f x) (f x') :=
  ⟨h.le, fun hn => congrArg f (h.eq hn)⟩

theorem map₂ (h : SameAtCount m m' x x') (k : SameAtCount n n' y y') (f : α → β → γ) :
    SameAtCount (m + n) (m' + n') (f x y) (f x' y') := by
  obtain ⟨hle, heq⟩ := h
  obtain ⟨kle, keq⟩ := k
  refine ⟨Nat.add_le_add hle kle, fun hn => ?_⟩
  rw [heq (by omega), keq (by omega)]

/-- What is counted besides is gone from the second. -/
theorem of_lt (h : SameAtCount n n' x x') (hm : 0 < m) (z : α) : SameAtCount (m + n) n' z x' :=
  ⟨by have := h.le; omega, fun hn => by have := h.le; omega⟩

end SameAtCount

theorem Text.Looser.sameAtCount {t t' : Text} (h : t.Looser t') :
    SameAtCount t.gaps t'.gaps t t' := by
  induction h with
  | nil => exact .refl _ _
  | @same u t t' _ ih =>
    have hcons : ∀ s : Text, Text.gaps (u :: s) = Text.gaps [u] + s.gaps :=
      fun s => @List.countP_append _ _ [u] s
    rw [hcons t, hcons t']
    exact (SameAtCount.refl _ u).map₂ ih List.cons
  | @gap u t t' hu _ ih =>
    rw [show Text.gaps (u :: t) = 1 + t.gaps by rw [gaps, List.countP_cons_of_pos hu, Nat.add_comm]; rfl]
    exact ih.of_lt Nat.one_pos _

namespace Inline

mutual

theorem Looser.sameAtCount : ∀ {n n' : Inline}, n.Looser n' →
    SameAtCount n.gaps n'.gaps (n.mapOffsets fun _ => ()) (n'.mapOffsets fun _ => ())
  | _, _, .text _ _ _ _ h => h.sameAtCount.map (Inline.text (.span () ()))
  | _, _, .code _ _ _ _ h => h.sameAtCount.map (Inline.code (.span () ()))
  | _, _, .math _ _ _ _ h => h.sameAtCount.map (Inline.math (.span () ()))
  | _, _, .hardBreak _ _ _ _ => .refl _ _
  | _, _, .emphasis _ _ _ _ h => (Spaced.sameAtCount h).map (Inline.emphasis (.span () ()))
  | _, _, .strong _ _ _ _ h => (Spaced.sameAtCount h).map (Inline.strong (.span () ()))
  | _, _, .link _ _ _ _ h hcs => h.sameAtCount.map₂ (Spaced.sameAtCount hcs) (Inline.link (.span () ()))

theorem Spaced.sameAtCount : ∀ {ns ns' : List Inline}, Spaced Looser ns ns' →
    SameAtCount (allGaps ns) (allGaps ns') (mapAllOffsets (fun _ => ()) ns)
      (mapAllOffsets (fun _ => ()) ns')
  | _, _, .nil => .refl _ _
  -- A text that was put in has a space at least, so here the counts are never the same.
  | _, _, .gap _ hne ht h =>
    (Spaced.sameAtCount h).of_lt (List.countP_pos_iff.mpr (by
      obtain ⟨u, t, rfl⟩ := List.exists_cons_of_ne_nil hne
      exact ⟨u, List.mem_cons_self, Text.Looser.nil_iff.mp ht u List.mem_cons_self⟩)) _
  | _, _, .cons hn h => hn.sameAtCount.map₂ (Spaced.sameAtCount h) List.cons

end

end Inline

theorem TableCell.sameAtCount {cells cells' : List TableCell}
    (h : List.Forall₂ TableCell.Looser cells cells') :
    SameAtCount (allGaps cells) (allGaps cells') (cells.map (TableCell.mapOffsets fun _ => ()))
      (cells'.map (TableCell.mapOffsets fun _ => ())) := by
  induction h with
  | nil => exact .refl _ _
  | cons h _ ih =>
    obtain ⟨_, _, _, _, h⟩ := h
    exact h.spaced.sameAtCount.map₂ ih fun cs rest => ⟨.span () (), cs⟩ :: rest

theorem TableRow.sameAtCount {rows rows' : List TableRow}
    (h : List.Forall₂ TableRow.Looser rows rows') :
    SameAtCount (allGaps rows) (allGaps rows') (rows.map (TableRow.mapOffsets fun _ => ()))
      (rows'.map (TableRow.mapOffsets fun _ => ())) := by
  induction h with
  | nil => exact .refl _ _
  | cons h _ ih =>
    obtain ⟨_, _, _, _, h⟩ := h
    exact (TableCell.sameAtCount h).map₂ ih fun cells rest => ⟨.span () (), cells⟩ :: rest

mutual

/-- A block that has as many spaces as the one it is without them is the same one, but for places. -/
theorem Block.Looser.sameAtCount : ∀ {b b' : Block}, b.Looser b' →
    SameAtCount b.gaps b'.gaps (b.mapOffsets fun _ => ()) (b'.mapOffsets fun _ => ())
  | _, _, .paragraph _ _ _ _ h => h.spaced.sameAtCount.map (Block.paragraph (.span () ()))
  | _, _, .heading flags _ _ _ _ level h =>
    h.spaced.sameAtCount.map (Block.heading ⟨flags, (), ()⟩ level)
  | _, _, .quote _ _ _ _ h => (Block.sameAtCount h).map (Block.quote (.span () ()))
  | _, _, .list _ _ _ _ ordered h => (ListItem.sameAtCount h).map (Block.list (.span () ()) ordered)
  | _, _, .code _ _ _ _ _ _ => .refl _ _
  | _, _, .table _ _ _ _ h => (TableRow.sameAtCount h).map (Block.table (.span () ()))
  | _, _, .math _ _ _ _ h environment =>
    h.sameAtCount.map fun t => Block.math (.span () ()) t environment

theorem Block.sameAtCount : ∀ {bs bs' : List Block}, List.Forall₂ Block.Looser bs bs' →
    SameAtCount (Block.allGaps bs) (Block.allGaps bs') (Block.mapAllOffsets (fun _ => ()) bs)
      (Block.mapAllOffsets (fun _ => ()) bs')
  | _, _, .nil => .refl _ _
  | _, _, .cons hb h => hb.sameAtCount.map₂ (Block.sameAtCount h) List.cons

theorem ListItem.sameAtCount : ∀ {items items' : List ListItem},
    List.Forall₂ ListItem.Looser items items' →
    SameAtCount (ListItem.allGaps items) (ListItem.allGaps items')
      (ListItem.mapAllOffsets (fun _ => ()) items) (ListItem.mapAllOffsets (fun _ => ()) items')
  | _, _, .nil => .refl _ _
  | _, _, .cons (.mk flags _ _ _ _ hcs hbs) h =>
    (hcs.spaced.sameAtCount.map₂ (Block.sameAtCount hbs) (ListItem.mk ⟨flags, (), ()⟩)).map₂
      (ListItem.sameAtCount h) List.cons

end

/-- Of a document and one that lacks spaces of it, read from the same source, the trees are the same but
for places exactly where they have as many. -/
theorem Document.mapOffsets_eq_iff_gaps {d d' : Document} (hinfo : d.info.flags = d'.info.flags)
    (hlines : d.lineStarts = d'.lineStarts)
    (hchildren : List.Forall₂ Block.Looser d.children d'.children) :
    d.mapOffsets (fun _ => ()) = d'.mapOffsets (fun _ => ()) ↔ d.gaps = d'.gaps := by
  constructor
  · intro h
    rw [← d.gaps_mapOffsets (fun _ => ()), h, gaps_mapOffsets]
  · intro h
    rw [mapOffsets, mapOffsets, (Block.sameAtCount hchildren).eq h.symm, hlines,
      NodeInfo.mapOffsets, NodeInfo.mapOffsets, hinfo]

end LatexMarkdown
