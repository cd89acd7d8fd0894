import LatexMarkdown.Document.Fragments
/-!
  Content with its offsets mapped.

  Putting inline content into normal form looks at kinds and texts only, so it comes to the same
  whether offsets are mapped before or after (`Inline.normalize_map`), and so does gathering it
  (`Fragments.finish_map`).
-/
namespace LatexMarkdown

variable {P Q : Type} (f : P → Q)

namespace Inline

/-! ## Normal form -/

@[simp] theorem isText_mapOffsets (n : Inline P) : (n.mapOffsets f).isText = n.isText := by
  cases n <;> simp [mapOffsets, isText]

@[simp] theorem isHardBreak_mapOffsets (n : Inline P) :
    (n.mapOffsets f).isHardBreak = n.isHardBreak := by
  cases n <;> simp [mapOffsets, isHardBreak]

@[simp] theorem isEmptyText_mapOffsets (n : Inline P) :
    (n.mapOffsets f).isEmptyText = n.isEmptyText := by
  cases n <;> simp [mapOffsets, isEmptyText]

@[simp] theorem info_mapOffsets (n : Inline P) : (n.mapOffsets f).info = n.info.mapOffsets f := by
  cases n <;> simp [mapOffsets, info]

mutual

@[simp] theorem plainText_mapOffsets : ∀ n : Inline P, (n.mapOffsets f).plainText = n.plainText
  | .text _ _ | .code _ _ | .math _ _ => by simp [mapOffsets, plainText]
  | .hardBreak _ => by simp [mapOffsets, plainText]
  | .emphasis _ cs => by simp [mapOffsets, plainText, plainTextOf_mapAllOffsets cs]
  | .strong _ cs => by simp [mapOffsets, plainText, plainTextOf_mapAllOffsets cs]
  | .link _ _ cs => by simp [mapOffsets, plainText, plainTextOf_mapAllOffsets cs]

theorem plainTextOf_mapAllOffsets : ∀ ns : List (Inline P),
    plainTextOf (mapAllOffsets f ns) = plainTextOf ns
  | [] => rfl
  | n :: rest => by
    rw [mapAllOffsets, plainTextOf, plainTextOf, plainText_mapOffsets n,
      plainTextOf_mapAllOffsets rest]

end

@[simp] theorem plainTextOf_map (ns : List (Inline P)) :
    plainTextOf (ns.map (mapOffsets f)) = plainTextOf ns := by
  rw [← mapAllOffsets_eq_map, plainTextOf_mapAllOffsets]

theorem mergeInto_map (n : Inline P) (rest : List (Inline P)) :
    mergeInto (n.mapOffsets f) (rest.map (mapOffsets f)) = (mergeInto n rest).map (mapOffsets f) := by
  cases n with
  | text i s =>
    cases rest with
    | nil => simp [mergeInto, mapOffsets]
    | cons m rest =>
      cases m <;> simp [mergeInto, mapOffsets, joinTexts, NodeInfo.mapOffsets]
  | _ => simp [mergeInto, mapOffsets]

theorem mergeTexts_map (ns : List (Inline P)) :
    mergeTexts (ns.map (mapOffsets f)) = (mergeTexts ns).map (mapOffsets f) := by
  induction ns with
  | nil => rfl
  | cons n rest ih =>
    show mergeInto (n.mapOffsets f) (mergeTexts (rest.map (mapOffsets f))) = _
    rw [ih, mergeInto_map]
    rfl

theorem edgeFirst_map (ns : List (Inline P)) : edgeFirst (ns.map (mapOffsets f)) = edgeFirst ns := by
  cases ns <;> simp [edgeFirst]

theorem tidyTexts_map (atEdge : Bool) (ns : List (Inline P)) :
    tidyTexts atEdge (ns.map (mapOffsets f)) = (tidyTexts atEdge ns).map (mapOffsets f) := by
  induction ns generalizing atEdge with
  | nil => rfl
  | cons n rest ih =>
    cases n <;>
      simp [mapOffsets, tidyTexts, ih, edgeFirst_map, isHardBreak, NodeInfo.mapOffsets]

theorem dropWhile_isHardBreak_map (ns : List (Inline P)) :
    (ns.map (mapOffsets f)).dropWhile isHardBreak
      = (ns.dropWhile isHardBreak).map (mapOffsets f) := by
  induction ns with
  | nil => rfl
  | cons n rest ih =>
    rw [List.map_cons, List.dropWhile_cons, List.dropWhile_cons, isHardBreak_mapOffsets, ih]
    split
    · rfl
    · rw [List.map_cons]

/-- Normal form does not depend on offsets. -/
theorem normalize_map (ns : List (Inline P)) :
    normalize (ns.map (mapOffsets f)) = (normalize ns).map (mapOffsets f) := by
  have hfilter : ∀ ns : List (Inline P), (ns.map (mapOffsets f)).filter (!·.isEmptyText)
      = (ns.filter (!·.isEmptyText)).map (mapOffsets f) := by
    intro ns
    rw [List.filter_map]
    congr 1
    apply List.filter_congr
    intro n _
    simp
  rw [normalize, normalize, mergeTexts_map, tidyTexts_map, hfilter, trimHardBreaks, trimHardBreaks,
    dropWhile_isHardBreak_map, ← List.map_reverse, dropWhile_isHardBreak_map, List.map_reverse]

end Inline

/-! ## Content in the making -/

/-- The same with the offsets mapped. -/
def OpenText.mapOffsets (t : OpenText P) : OpenText Q :=
  { start := f t.start, stop := f t.stop, pieces := t.pieces }

namespace Fragments

/-- The same with the offsets mapped. -/
def mapOffsets (g : Fragments P) : Fragments Q :=
  { nodes := g.nodes.map (Inline.mapOffsets f), pending? := g.pending?.map (OpenText.mapOffsets f) }

theorem flush_map (g : Fragments P) : (g.mapOffsets f).flush = g.flush.mapOffsets f := by
  obtain ⟨nodes, pending?⟩ := g
  cases pending? with
  | none => rfl
  | some t =>
    simp [flush, mapOffsets, OpenText.toInline, OpenText.mapOffsets, Inline.mapOffsets,
      NodeInfo.mapOffsets]

theorem push_map (g : Fragments P) (n : Inline P) :
    (g.mapOffsets f).push (n.mapOffsets f) = (g.push n).mapOffsets f := by
  rw [push, push, flush_map]
  simp [mapOffsets]

theorem toList_map (g : Fragments P) : (g.mapOffsets f).toList = g.toList.map (Inline.mapOffsets f) := by
  rw [toList, toList, flush_map, List.map_reverse]
  rfl

@[simp] theorem leadingSpace_map (g : Fragments P) :
    (g.mapOffsets f).leadingSpace = g.leadingSpace := by
  rw [leadingSpace, leadingSpace, toList_map, List.head?_map]
  cases g.toList.head? with
  | none => rfl
  | some n => cases n <;> simp [Inline.mapOffsets]

@[simp] theorem trailingSpace_map (g : Fragments P) :
    (g.mapOffsets f).trailingSpace = g.trailingSpace := by
  have hnodes : (g.flush.mapOffsets f).nodes = g.flush.nodes.map (Inline.mapOffsets f) := rfl
  rw [trailingSpace, trailingSpace, flush_map, hnodes, List.head?_map]
  cases g.flush.nodes.head? with
  | none => rfl
  | some n => cases n <;> simp [Inline.mapOffsets]

/-- Content comes to the same with its offsets mapped before or after. -/
theorem finish_map (g : Fragments P) : (g.mapOffsets f).finish = g.finish.map (Inline.mapOffsets f) := by
  rw [finish, finish, toList_map, Inline.normalize_map]

section

variable (f : Nat → Nat)

theorem pushText_map (g : Fragments) (start stop : Nat) (text : Text) :
    (g.mapOffsets f).pushText (f start) (f stop) text = (g.pushText start stop text).mapOffsets f := by
  unfold pushText mapOffsets
  cases g.pending? with
  | none => rfl
  | some t => simp [OpenText.mapOffsets]

theorem pushAll_map (g : Fragments) (ns : List Inline) :
    (g.mapOffsets f).pushAll (ns.map (Inline.mapOffsets f)) = (g.pushAll ns).mapOffsets f := by
  induction ns generalizing g with
  | nil => rfl
  | cons n rest ih =>
    cases n with
    | text i t =>
      show ((g.mapOffsets f).pushText (f i.start) (f i.stop) t).pushAll _ = _
      rw [pushText_map, ih]
      rfl
    | _ =>
      show ((g.mapOffsets f).push (Inline.mapOffsets f _)).pushAll _ = _
      rw [push_map, ih]
      rfl

end

end Fragments

/-! ## Tables -/

@[simp] theorem TableCell.isEmpty_children_mapOffsets (c : TableCell P) :
    (c.mapOffsets f).children.isEmpty = c.children.isEmpty := by
  simp [mapOffsets, Inline.mapAllOffsets_eq_map]

@[simp] theorem TableRow.length_cells_mapOffsets (r : TableRow P) :
    (r.mapOffsets f).cells.length = r.cells.length := by
  simp [mapOffsets]

@[simp] theorem TableRow.columnCount_map (rows : List (TableRow P)) :
    columnCount (rows.map (mapOffsets f)) = columnCount rows := by
  have hfold : ∀ n, (rows.map (mapOffsets f)).foldl (fun n r => max n r.cells.length) n
      = rows.foldl (fun n r => max n r.cells.length) n := by
    intro n
    induction rows generalizing n with
    | nil => rfl
    | cons r rest ih => rw [List.map_cons, List.foldl_cons, List.foldl_cons, ih,
        length_cells_mapOffsets]
  exact hfold 0

/-! ## Offsets mapped twice -/

section

variable {R : Type} (g : Q → R)

@[simp] theorem NodeInfo.mapOffsets_mapOffsets (i : NodeInfo P) :
    (i.mapOffsets f).mapOffsets g = i.mapOffsets (g ∘ f) := rfl

mutual

@[simp] theorem Inline.mapOffsets_mapOffsets : ∀ n : Inline P,
    (n.mapOffsets f).mapOffsets g = n.mapOffsets (g ∘ f)
  | .text _ _ | .code _ _ | .math _ _ | .hardBreak _ => by simp [mapOffsets]
  | .emphasis _ cs => by simp [mapOffsets, mapAllOffsets_mapAllOffsets cs]
  | .strong _ cs => by simp [mapOffsets, mapAllOffsets_mapAllOffsets cs]
  | .link _ _ cs => by simp [mapOffsets, mapAllOffsets_mapAllOffsets cs]

theorem Inline.mapAllOffsets_mapAllOffsets : ∀ ns : List (Inline P),
    mapAllOffsets g (mapAllOffsets f ns) = mapAllOffsets (g ∘ f) ns
  | [] => rfl
  | n :: rest => by
    rw [mapAllOffsets, mapAllOffsets, mapOffsets_mapOffsets n, mapAllOffsets_mapAllOffsets rest,
      mapAllOffsets]

end

@[simp] theorem TableRow.mapOffsets_mapOffsets (r : TableRow P) :
    (r.mapOffsets f).mapOffsets g = r.mapOffsets (g ∘ f) := by
  simp [mapOffsets, TableCell.mapOffsets, Inline.mapAllOffsets_mapAllOffsets]

mutual

@[simp] theorem Block.mapOffsets_mapOffsets : ∀ b : Block P,
    (b.mapOffsets f).mapOffsets g = b.mapOffsets (g ∘ f)
  | .paragraph _ cs => by simp [Block.mapOffsets, Inline.mapAllOffsets_mapAllOffsets]
  | .heading _ _ cs => by simp [Block.mapOffsets, Inline.mapAllOffsets_mapAllOffsets]
  | .quote _ bs => by simp [Block.mapOffsets, Block.mapAllOffsets_mapAllOffsets bs]
  | .list _ _ items => by simp [Block.mapOffsets, ListItem.mapAllOffsets_mapAllOffsets items]
  | .code _ _ _ | .math _ _ _ => by simp [Block.mapOffsets]
  | .table _ rows => by simp [Block.mapOffsets]

theorem Block.mapAllOffsets_mapAllOffsets : ∀ bs : List (Block P),
    Block.mapAllOffsets g (Block.mapAllOffsets f bs) = Block.mapAllOffsets (g ∘ f) bs
  | [] => rfl
  | b :: rest => by
    simp [Block.mapAllOffsets, Block.mapOffsets_mapOffsets b,
      Block.mapAllOffsets_mapAllOffsets rest]

theorem ListItem.mapAllOffsets_mapAllOffsets : ∀ items : List (ListItem P),
    ListItem.mapAllOffsets g (ListItem.mapAllOffsets f items)
      = ListItem.mapAllOffsets (g ∘ f) items
  | [] => rfl
  | ⟨_, _, bs⟩ :: rest => by
    simp [ListItem.mapAllOffsets, ListItem.mapOffsets, Inline.mapAllOffsets_mapAllOffsets,
      Block.mapAllOffsets_mapAllOffsets bs, ListItem.mapAllOffsets_mapAllOffsets rest]

end

end

end LatexMarkdown
