import LatexMarkdown.Proofs.NormalForm
/-!
  What is made up in a document.

  Only the item that holds what comes before the first item marker of a list is marked as made up, and
  it is the first of its list.  `Node.Genuine` says so of a node and everything below it, and every
  change keeps it of all that a state has finished or gathered (`Genuine.change`).

  The marks are set where an item is finished.  Everything else that reading makes is made with a span
  alone, and normal form makes its texts anew.
-/
namespace LatexMarkdown

variable {P : Type}

/-! ## Marks -/

/-- Is the node marked as made up? -/
def Node.isMadeUp (n : Node P) : Bool := n.info.flags.synthetic

/-- Of what is right below the node, only the first item of a list is made up. -/
def Node.MadeUpFirst : Node P → Prop
  | .block (.list _ _ items) => ∀ item ∈ items.tail, (Node.listItem item).isMadeUp = false
  | n => ∀ c ∈ n.children, c.isMadeUp = false

/-- From the node down, nothing but first items of lists is made up. -/
structure Node.Genuine (n : Node P) : Prop where
  given : n.isMadeUp = false
  below : ∀ m ∈ n.tree.preorder, m.MadeUpFirst

namespace Node.Genuine

variable {n : Node P}

theorem below_of_children (h : n.MadeUpFirst)
    (hc : ∀ c ∈ n.children, ∀ m ∈ c.tree.preorder, m.MadeUpFirst) :
    ∀ m ∈ n.tree.preorder, m.MadeUpFirst := by
  intro m hm
  rcases mem_preorder_tree.mp hm with rfl | ⟨c, hmem, hm⟩
  · exact h
  · exact hc c hmem m hm

/-- A node that is not a list. -/
theorem of_children (hn : n.isMadeUp = false) (hlist : n.kind ≠ .list)
    (hc : ∀ c ∈ n.children, c.Genuine) : n.Genuine := by
  refine ⟨hn, below_of_children ?_ fun c hmem => (hc c hmem).below⟩
  have hgiven : ∀ c ∈ n.children, c.isMadeUp = false := fun c hmem => (hc c hmem).given
  cases n with
  | block b =>
    cases b with
    | list => exact absurd rfl hlist
    | _ => exact hgiven
  | _ => exact hgiven

/-- A node with nothing below it. -/
theorem of_children_nil (hn : n.isMadeUp = false) (hlist : n.kind ≠ .list) (h : n.children = []) :
    n.Genuine :=
  of_children hn hlist (by simp [h])

theorem children (h : n.Genuine) (hlist : n.kind ≠ .list) : ∀ c ∈ n.children, c.Genuine := by
  have hfirst := h.below n (mem_preorder_tree.mpr (.inl rfl))
  intro c hc
  refine ⟨?_, fun m hm => h.below m (mem_preorder_tree.mpr (.inr ⟨c, hc, hm⟩))⟩
  cases n with
  | block b =>
    cases b with
    | list => exact absurd rfl hlist
    | _ => exact hfirst c hc
  | _ => exact hfirst c hc

end Node.Genuine

/-! ## Inline content -/

namespace Inline

/-- Content in which nothing is made up. -/
def Genuine (ns : List Inline) : Prop := ∀ n ∈ ns, (Node.inline n).Genuine

theorem genuine_nil : Genuine [] := by simp [Genuine]

theorem genuine_singleton {n : Inline} (h : (Node.inline n).Genuine) : Genuine [n] := by
  intro m hm
  exact List.mem_singleton.mp hm ▸ h

/-- Content as the children of a node. -/
theorem Genuine.map {ns : List Inline} (h : Genuine ns) : ∀ c ∈ ns.map Node.inline, c.Genuine := by
  intro c hc
  obtain ⟨n, hn, rfl⟩ := List.mem_map.mp hc
  exact h n hn

end Inline

/-- An inline node around content, made with a span alone. -/
theorem Node.Genuine.around {n : Inline} (h : Inline.Genuine n.children) (hn : n.info.flags = {}) :
    (Node.inline n).Genuine := by
  refine .of_children (by simp [Node.isMadeUp, Node.info, hn]) ?_ h.map
  cases n <;> simp [Node.kind, Inline.kind]

namespace Inline

theorem genuine_text {i : NodeInfo} (hi : i.flags = {}) (t : Text) :
    (Node.inline (.text i t)).Genuine :=
  .around genuine_nil hi

theorem Tidy.flags_of_mem {atEdge : Bool} {ns : List (Inline P)} (h : Tidy atEdge ns)
    {i : NodeInfo P} {t : Text} (hmem : .text i t ∈ ns) : i.flags = {} := by
  induction ns generalizing atEdge with
  | nil => cases hmem
  | cons n rest ih =>
    by_cases htext : n.isText = true
    · cases n with
      | text j s =>
        rcases List.mem_cons.mp hmem with heq | hmem
        · cases heq
          exact h.1.1
        · exact ih h.2 hmem
      | _ => cases htext
    · have hn : n.isText = false := by simpa using htext
      rcases List.mem_cons.mp hmem with rfl | hmem
      · exact absurd rfl htext
      · exact ih ((tidy_cons_of_isText hn).mp h) hmem

/-- Normal form makes up nothing: its texts are made anew, and all else was there. -/
theorem Genuine.normalize {ns : List Inline} (h : Genuine ns) : Genuine (normalize ns) := by
  intro n hn
  rcases mem_normalize hn with ⟨hmem, -⟩ | ⟨i, t, rfl, -⟩
  · exact h n hmem
  · exact genuine_text ((normal_normalize ns).tidy.flags_of_mem hn) t

end Inline

namespace Fragments

/-- Nothing that was gathered is made up. -/
def Genuine (f : Fragments) : Prop := Inline.Genuine f.toList

namespace Genuine

variable {f : Fragments}

theorem empty : ({} : Fragments).Genuine := by
  intro n hn
  cases hn

theorem finish (h : f.Genuine) : Inline.Genuine f.finish := h.normalize

theorem pushText (h : f.Genuine) (start stop : Nat) (t : Text) : (f.pushText start stop t).Genuine :=
  forall_pushText (fun _ => Inline.genuine_text) h start stop t

theorem pushAll (h : f.Genuine) {ns : List Inline} (hns : Inline.Genuine ns) :
    (f.pushAll ns).Genuine :=
  forall_pushAll (fun _ => Inline.genuine_text) h hns

end Genuine

end Fragments

namespace Parse

/-! ## Inline content -/

/-- What is read from a token on is not made up. -/
theorem Reads.genuine {ctx : Context} {c d : Cursor} {ns : List Inline} (h : Reads ctx c d ns) :
    Inline.Genuine ns := by
  have hleaf : ∀ n : Inline, n.children = [] → n.info.flags = {} → (Node.inline n).Genuine :=
    fun n hn hflags => .around (hn ▸ Inline.genuine_nil) hflags
  cases h with
  | dropped => exact Inline.genuine_nil
  | text | hardBreak | verbatim => exact Inline.genuine_singleton (hleaf _ rfl rfl)
  | comment =>
    intro n hn
    rcases List.mem_cons.mp hn with rfl | hn
    · exact hleaf _ rfl rfl
    · rw [List.mem_singleton.mp hn]
      exact hleaf _ rfl rfl
  | url =>
    exact Inline.genuine_singleton (.around (Inline.genuine_singleton (hleaf _ rfl rfl)) rfl)
  | math h =>
    refine forall_readInlineMath (fun start stop body n hn => ?_) h
    simp only [mathSpan] at hn
    split at hn
    · cases hn
    · rw [List.mem_singleton.mp hn]
      exact hleaf _ rfl rfl

/-- A finished argument becomes a node with a span alone, or its content goes on in its place. -/
theorem genuine_closeArgument {purpose : Purpose} {argument outer : Fragments}
    (houter : outer.Genuine) (hargument : argument.Genuine) (stop : Nat) :
    (State.closeArgument purpose argument stop outer).Genuine := by
  refine forall_closeArgument (fun _ => Inline.genuine_text) houter hargument.finish ?_ ?_ ?_ stop
  · intro m url i _ hi
    exact .around (Inline.genuine_singleton (Inline.genuine_text hi _)) hi
  · exact fun m url i _ _ hi => .around hargument.finish hi
  · exact fun _ i hi => ⟨.around hargument.finish hi, .around hargument.finish hi,
      .around Inline.genuine_nil hi⟩

/-! ## Lists -/

theorem genuine_labelled {label content : List Inline} (hlabel : Inline.Genuine label)
    (hcontent : Inline.Genuine content) : Inline.Genuine (labelled label content) :=
  forall_labelled (fun _ => Inline.genuine_text) (fun _ _ hi => .around hlabel hi) hcontent

/-- Below an item of genuine blocks nothing is made up, whatever the item's own marks are. -/
theorem genuine_listItem {label : List Inline} {blocks : List Block} (hlabel : Inline.Genuine label)
    (hblocks : ∀ b ∈ blocks, (Node.block b).Genuine) (start stop : Nat) (i : NodeInfo) :
    ∀ c ∈ (Node.listItem { listItem start stop label blocks with info := i }).children, c.Genuine := by
  obtain ⟨content, rest, heq, hor, hrest⟩ := exists_listItem_eq label blocks start stop
  have hcontent : Inline.Genuine content := by
    rcases hor with rfl | ⟨j, hmem⟩
    · exact Inline.genuine_nil
    · intro n hn
      exact (hblocks _ hmem).children (by simp [Node.kind, Block.kind]) _ (List.mem_map_of_mem hn)
  rw [heq]
  intro c hc
  rcases List.mem_append.mp hc with hc | hc
  · exact (genuine_labelled hlabel hcontent).map c hc
  · obtain ⟨b, hb, rfl⟩ := List.mem_map.mp hc
    exact hblocks b (hrest hb)

/-- A list of items, the first of which may be made up. -/
theorem genuine_list {items : List ListItem} (i : NodeInfo) (hi : i.flags = {}) (ordered : Bool)
    (hitems : ∀ item ∈ items, ∀ c ∈ (Node.listItem item).children, c.Genuine)
    (htail : ∀ item ∈ items.tail, (Node.listItem item).isMadeUp = false) :
    (Node.block (.list i ordered items)).Genuine := by
  refine ⟨by simp [Node.isMadeUp, Node.info, Block.info, hi], ?_⟩
  refine Node.Genuine.below_of_children htail fun c hc => ?_
  obtain ⟨item, hmem, rfl⟩ := List.mem_map.mp hc
  exact Node.Genuine.below_of_children (fun c hc => (hitems item hmem c hc).given)
    fun c hc => (hitems item hmem c hc).below

/-! ## What a state keeps -/

/-- An open list: its finished items, the last one first.  What comes before the first item marker can
only become the first of them. -/
structure OpenList.Genuine (l : OpenList) : Prop where
  items : ∀ item ∈ l.items, ∀ c ∈ (Node.listItem item).children, c.Genuine
  later : ∀ item ∈ l.items.reverse.tail, (Node.listItem item).isMadeUp = false
  first : l.item.implicit = true → l.items = []
  label : Inline.Genuine l.item.label

structure OpenTable.Genuine (table : OpenTable) : Prop where
  rows : ∀ r ∈ table.rows, (Node.tableRow r).Genuine
  cells : ∀ c ∈ table.cells, (Node.tableCell c).Genuine

/-- Nothing is made up in the pieces of a state, first items of lists apart. -/
def genuinePieces : Pieces where
  cursor _ := True
  block b := (Node.block b).Genuine
  gathered := Fragments.Genuine
  list := OpenList.Genuine
  table := OpenTable.Genuine
  argument a := a.outer.fragments.Genuine

variable {s t : State}

/-! ### Items, cells and rows -/

/-- Below the items of a list nothing is made up when the open one is finished, and only the first
item can be. -/
theorem genuine_finishItem {e : OpenEnvironment} {l : OpenList} (hlist : l.Genuine)
    (hblocks : ∀ b ∈ e.blocks, (Node.block b).Genuine) :
    (∀ item ∈ (s.finishItem e l).2, ∀ c ∈ (Node.listItem item).children, c.Genuine) ∧
      ∀ item ∈ (s.finishItem e l).2.reverse.tail, (Node.listItem item).isMadeUp = false := by
  have hfinished := genuine_listItem hlist.label (fun b hb => hblocks b (List.mem_reverse.mp hb))
    l.item.start s.cursor.lastStop
  simp only [State.finishItem]
  split
  · -- An item that has its marker is not made up.
    refine ⟨List.forall_mem_cons.mpr ⟨hfinished _, hlist.items⟩, fun item hitem => ?_⟩
    rw [List.reverse_cons] at hitem
    cases hrev : l.items.reverse with
    | nil =>
      rw [hrev] at hitem
      cases hitem
    | cons first rest =>
      rw [hrev, List.cons_append, List.tail_cons] at hitem
      rcases List.mem_append.mp hitem with hitem | hitem
      · exact hlist.later item (by rw [hrev]; exact hitem)
      · rw [List.mem_singleton.mp hitem]
        simp only [listItem]
        split <;> rfl
  · next himplicit =>
    have hnil := hlist.first (by simpa using himplicit)
    split
    · exact ⟨hlist.items, hlist.later⟩
    · rw [hnil]
      exact ⟨List.forall_mem_cons.mpr ⟨hfinished _, by simp⟩, by simp⟩

theorem genuine_finishCell {table : OpenTable} {content : Fragments} (h : table.Genuine)
    (hcontent : content.Genuine) : (s.finishCell table content).Genuine := by
  have hcell : ∀ (start stop : Nat) (cs : List Inline), Inline.Genuine cs →
      (Node.tableCell ⟨.span start stop, cs⟩).Genuine := fun start stop cs hcs =>
    .of_children rfl (by simp [Node.kind]) hcs.map
  refine ⟨h.rows, fun c hc => ?_⟩
  rcases List.mem_append.mp hc with hc | hc
  · rw [List.eq_of_mem_replicate hc]
    exact hcell _ _ [] Inline.genuine_nil
  · rcases List.mem_cons.mp hc with rfl | hc
    · exact hcell _ _ _ hcontent.finish
    · exact h.cells c hc

theorem genuine_finishRow {table : OpenTable} (h : table.Genuine) :
    ∀ r ∈ (s.finishRow table).rows, (Node.tableRow r).Genuine := by
  simp only [State.finishRow]
  split
  · refine List.forall_mem_cons.mpr ⟨.of_children rfl (by simp [Node.kind]) ?_, h.rows⟩
    intro c hc
    obtain ⟨cell, hmem, rfl⟩ := List.mem_map.mp hc
    exact h.cells cell (List.mem_reverse.mp hmem)
  · exact h.rows

/-! ### Changes -/

/-- Reading makes nothing up but first items of lists. -/
theorem genuinePieces_closed (ctx : Context) : genuinePieces.Closed ctx where
  reaches _ _ := trivial
  leaf _ hleaf := by
    cases hleaf <;> exact .of_children_nil rfl (by simp [Node.kind, Block.kind]) rfl
  empty := .empty
  pushText hf := hf.pushText
  pushAll hf _ hr := hf.pushAll hr.genuine
  paragraph hf _ _ _ := .of_children rfl (by simp [Node.kind, Block.kind]) hf.finish.map
  heading hf _ _ hinfo := .of_children hinfo (by simp [Node.kind, Block.kind]) hf.finish.map
  quote hblocks _ _ := by
    refine .of_children rfl (by simp [Node.kind, Block.kind]) fun c hc => ?_
    obtain ⟨b, hb, rfl⟩ := List.mem_map.mp hc
    exact hblocks b (List.mem_reverse.mp hb)
  newList hitems hlabel :=
    ⟨by simp [hitems], by simp [hitems], fun _ => hitems, hlabel ▸ Inline.genuine_nil⟩
  label hlist hf := ⟨hlist.items, hlist.later, hlist.first, hf.finish⟩
  nextItem hlist hblocks s _ := by
    have hfinished := genuine_finishItem (s := s) hlist hblocks
    exact ⟨hfinished.1, hfinished.2, by simp, Inline.genuine_nil⟩
  closeList hlist hblocks s _ _ := by
    have hfinished := genuine_finishItem (s := s) hlist hblocks
    exact genuine_list _ rfl _ (fun item hmem => hfinished.1 item (List.mem_reverse.mp hmem))
      hfinished.2
  newTable hrows hcells := ⟨by simp [hrows], by simp [hcells]⟩
  sameTable htable hrows hcells := ⟨hrows ▸ htable.rows, hcells ▸ htable.cells⟩
  cell htable hf _ := genuine_finishCell htable hf
  row htable _ := ⟨genuine_finishRow htable, by simp⟩
  closeTable htable _ _ _ := by
    refine .of_children rfl (by simp [Node.kind, Block.kind]) fun c hc => ?_
    obtain ⟨r, hmem, rfl⟩ := List.mem_map.mp hc
    exact htable.rows r (List.mem_reverse.mp hmem)
  argument _ hf _ _ _ := hf
  closeArgument ha hf _ := genuine_closeArgument ha hf _

/-- Nothing that a state keeps is made up, first items of lists apart. -/
def Genuine (s : State) : Prop := Keeping genuinePieces s

theorem Genuine.initial (settings : Settings) (source : Text) :
    Genuine (.initial settings source) :=
  Keeping.initial trivial

/-- Every change keeps it that nothing but first items of lists is made up. -/
theorem Genuine.change {ctx : Context} (h : Genuine s) (hchange : Change ctx s t) : Genuine t :=
  Keeping.change (genuinePieces_closed ctx) h hchange

end Parse

end LatexMarkdown
