import LatexMarkdown.Proofs.Making
import LatexMarkdown.Proofs.Steps.Keeping
/-!
  All that reading finishes is made of the source.

  `Making` says of everything that a state keeps what it is made of: finished blocks, open lists and
  tables, and what was gathered in runs that are open or interrupted.  Main statements:
  `Making.change`, every change keeps this, and `allMade_of_parseDocument`, all nodes of a document
  that is read are made of its source.
-/
namespace LatexMarkdown

variable {settings : Settings} {source : Text}

/-! ## Content in the making -/

namespace Fragments

/-- Nothing was gathered but nodes that are made of the source. -/
def Made (settings : Settings) (source : Text) (f : Fragments) : Prop :=
  ∀ n ∈ f.toList, n.Made settings source

namespace Made

variable {f : Fragments}

theorem empty : ({} : Fragments).Made settings source := by
  intro n hn
  cases hn

theorem finish (h : f.Made settings source) : Inline.Finished settings source f.finish :=
  ⟨f.toList, h, rfl⟩

theorem pushText (h : f.Made settings source) (start stop : Nat) (t : Text) :
    (f.pushText start stop t).Made settings source :=
  forall_pushText (fun i _ => .text i) h start stop t

theorem pushAll (h : f.Made settings source) {ns : List Inline}
    (hns : ∀ n ∈ ns, n.Made settings source) : (f.pushAll ns).Made settings source :=
  forall_pushAll (fun i _ => .text i) h hns

end Made

end Fragments

namespace Parse

open Cursor (Reaches)

/-- A finished argument becomes a node around its content, or its content goes on in its place. -/
theorem made_closeArgument {purpose : Purpose} {argument outer : Fragments} {stop : Nat}
    (houter : outer.Made settings source) (hargument : argument.Made settings source)
    (hurl : ∀ m url, purpose = .linkText m url → url ∈ source.destinations settings.keepComments) :
    (State.closeArgument purpose argument stop outer).Made settings source := by
  have hgathered : argument.finish ≠ [] → Inline.normalize argument.toList ≠ [] := id
  refine forall_closeArgument (fun i _ => .text i) houter hargument.finish.made ?_ ?_ ?_ stop
  · exact fun m url i hpurpose _ => .url i (hurl m url hpurpose)
  · exact fun m url i hpurpose hne _ => .link i (hurl m url hpurpose) hargument (hgathered hne)
  · exact fun hne i _ => ⟨.strong i hargument (hgathered hne),
      .emphasis i hargument (hgathered hne), .code i hargument (hgathered hne)⟩

/-! ## List items -/

theorem made_labelled {label content : List Inline} (hlabel : Inline.Finished settings source label)
    (hcontent : Inline.Finished settings source content) :
    ∀ n ∈ labelled label content, n.Made settings source := by
  refine forall_labelled (fun i _ => .text i) (fun hne i _ => ?_) hcontent.made
  obtain ⟨gathered, hmade, rfl⟩ := hlabel
  exact .strong i hmade hne

/-- A list item, whatever its marks. -/
theorem made_listItem {label : List Inline} {blocks : List Block}
    (hlabel : Inline.Finished settings source label)
    (hblocks : ∀ b ∈ blocks, (Node.block b).AllMade settings source) (start stop : Nat)
    (i : NodeInfo) :
    (Node.listItem { listItem start stop label blocks with info := i }).AllMade settings source := by
  obtain ⟨content, rest, heq, hor, hrest⟩ := exists_listItem_eq label blocks start stop
  have hcontent : Inline.Finished settings source content := by
    rcases hor with rfl | ⟨j, hmem⟩
    · exact Inline.finished_nil
    · exact (hblocks _ hmem).made.1
  rw [heq]
  refine .of_children ⟨label, content, hlabel, hcontent, rfl⟩ fun c hc => ?_
  rcases List.mem_append.mp hc with hc | hc
  · obtain ⟨n, hn, rfl⟩ := List.mem_map.mp hc
    exact .inline (made_labelled hlabel hcontent n hn)
  · obtain ⟨b, hb, rfl⟩ := List.mem_map.mp hc
    exact hblocks b (hrest hb)

/-! ## What a state keeps -/

/-- Finished items of a list and the label of the open one. -/
structure OpenList.Made (settings : Settings) (source : Text) (l : OpenList) : Prop where
  items : ∀ item ∈ l.items, (Node.listItem item).AllMade settings source
  label : Inline.Finished settings source l.item.label

/-- Finished blocks of an environment; of a list also its items. -/
structure OpenEnvironment.Made (settings : Settings) (source : Text) (e : OpenEnvironment) :
    Prop where
  blocks : ∀ b ∈ e.blocks, (Node.block b).AllMade settings source
  list : ∀ l, e.role = .list l → l.Made settings source

/-- Finished rows of a table and finished cells of its open row. -/
structure OpenTable.Made (settings : Settings) (source : Text) (table : OpenTable) : Prop where
  rows : ∀ r ∈ table.rows, (Node.tableRow r).AllMade settings source
  cells : ∀ c ∈ table.cells, (Node.tableCell c).AllMade settings source

/-- What an argument interrupts, and the destination it was read behind. -/
structure OpenArgument.Made (settings : Settings) (source : Text) (a : OpenArgument) : Prop where
  outer : a.outer.fragments.Made settings source
  url : ∀ m url, a.purpose = .linkText m url → url ∈ source.destinations settings.keepComments

/-- The table that a line belongs to, what is gathered and what is interrupted. -/
structure OpenInline.Made (settings : Settings) (source : Text) (i : OpenInline) : Prop where
  table : ∀ table, i.line = .cell table → table.Made settings source
  fragments : i.run.fragments.Made settings source
  arguments : ∀ a ∈ i.arguments, a.Made settings source

/-- All that a state keeps is made of the source. -/
structure Making (settings : Settings) (source : Text) (s : State) : Prop where
  begun : (source.cursor settings.keepComments).Reaches s.cursor
  blocks : ∀ b ∈ s.blocks, (Node.block b).AllMade settings source
  environments : ∀ e ∈ s.environments, e.Made settings source
  inline : ∀ i ∈ s.inline?, i.Made settings source

variable {s t : State}

/-! ## Items, cells and rows -/

/-- The items of a list when the open one is finished. -/
theorem made_finishItem {e : OpenEnvironment} {l : OpenList} (hlist : l.Made settings source)
    (hblocks : ∀ b ∈ e.blocks, (Node.block b).AllMade settings source) :
    ∀ item ∈ (s.finishItem e l).2, (Node.listItem item).AllMade settings source := by
  have hfinished := made_listItem hlist.label (fun b hb => hblocks b (List.mem_reverse.mp hb))
    l.item.start s.cursor.lastStop
  simp only [State.finishItem]
  split
  · exact List.forall_mem_cons.mpr ⟨hfinished _, hlist.items⟩
  · split
    · exact hlist.items
    · exact List.forall_mem_cons.mpr ⟨hfinished _, hlist.items⟩

/-- The cells of a row when the current one is finished. -/
theorem made_finishCell {table : OpenTable} {content : Fragments} (h : table.Made settings source)
    (hcontent : content.Made settings source) :
    (s.finishCell table content).Made settings source := by
  have hcell : ∀ (i : NodeInfo) (cs : List Inline), Inline.Finished settings source cs →
      (Node.tableCell ⟨i, cs⟩).AllMade settings source := fun i cs hcs =>
    .of_children hcs (Node.AllMade.content hcs)
  refine ⟨h.rows, fun c hc => ?_⟩
  rcases List.mem_append.mp hc with hc | hc
  · -- The empty cells behind one that spans columns.
    rw [List.eq_of_mem_replicate hc]
    exact hcell _ [] Inline.finished_nil
  · rcases List.mem_cons.mp hc with rfl | hc
    · exact hcell _ _ hcontent.finish
    · exact h.cells c hc

/-- The rows of a table when the current one is finished; it is kept if a cell has content. -/
theorem made_finishRow {table : OpenTable} (h : table.Made settings source) :
    ∀ r ∈ (s.finishRow table).rows, (Node.tableRow r).AllMade settings source := by
  simp only [State.finishRow]
  split
  · next hany =>
    obtain ⟨cell, hmem, hne⟩ := List.any_eq_true.mp hany
    refine List.forall_mem_cons.mpr ⟨.of_children ⟨cell, hmem, by simpa using hne⟩ ?_, h.rows⟩
    intro c hc
    obtain ⟨cell', hmem', rfl⟩ := List.mem_map.mp hc
    exact h.cells cell' (List.mem_reverse.mp hmem')
  · exact h.rows

/-! ## Changes -/

/-- What `Making` asks of the pieces of a state. -/
def madePieces (settings : Settings) (source : Text) : Pieces where
  cursor := (source.cursor settings.keepComments).Reaches
  block b := (Node.block b).AllMade settings source
  gathered := Fragments.Made settings source
  list := OpenList.Made settings source
  table := OpenTable.Made settings source
  argument := OpenArgument.Made settings source

/-- Reading makes the pieces from the source and from what is made of it. -/
theorem madePieces_closed (settings : Settings) (source : Text) :
    (madePieces settings source).Closed (.of settings source) where
  reaches hc hd := hc.trans hd
  leaf hc hleaf := by
    -- Nothing is below a leaf.
    cases hleaf with
    | code hk hraw hd =>
      exact .of_children ⟨_, _, hc, .code hk hraw hd⟩ (by simp [Node.children])
    | environment aligned hk hr hname =>
      exact .of_children ⟨_, _, hc, .environment aligned hk hr hname⟩ (by simp [Node.children])
    | display hk hr hne hopens =>
      exact .of_children ⟨_, _, hc, .display hk hr hne hopens⟩ (by simp [Node.children])
  empty := .empty
  pushText hf := hf.pushText
  pushAll hf hc hr := hf.pushAll fun _ => .read hc hr
  paragraph hf hne _ _ := .of_children ⟨hf.finish, hne⟩ (Node.AllMade.content hf.finish)
  heading hf _ _ _ := .of_children hf.finish (Node.AllMade.content hf.finish)
  quote hblocks _ _ := by
    refine .of_children trivial fun c hc => ?_
    obtain ⟨b, hb, rfl⟩ := List.mem_map.mp hc
    exact hblocks b (List.mem_reverse.mp hb)
  newList hitems hlabel := ⟨by simp [hitems], hlabel ▸ Inline.finished_nil⟩
  label hlist hf := ⟨hlist.items, hf.finish⟩
  nextItem hlist hblocks _ _ := ⟨made_finishItem hlist hblocks, Inline.finished_nil⟩
  closeList hlist hblocks _ _ _ := by
    refine .of_children trivial fun c hc => ?_
    obtain ⟨item, hmem, rfl⟩ := List.mem_map.mp hc
    exact made_finishItem hlist hblocks item (List.mem_reverse.mp hmem)
  newTable hrows hcells := ⟨by simp [hrows], by simp [hcells]⟩
  sameTable htable hrows hcells := ⟨hrows ▸ htable.rows, hcells ▸ htable.cells⟩
  cell htable hf _ := made_finishCell htable hf
  row htable _ := ⟨made_finishRow htable, by simp⟩
  closeTable htable _ _ _ := by
    refine .of_children trivial fun c hc => ?_
    obtain ⟨r, hmem, rfl⟩ := List.mem_map.mp hc
    exact htable.rows r (List.mem_reverse.mp hmem)
  argument hc hf purpose _ hurl := by
    -- A link command has its destination read before its text.
    refine ⟨hf, fun m url hpurpose => ?_⟩
    obtain ⟨hhref, flaw, text, d, hread, rfl⟩ := hurl m url hpurpose
    exact mem_destinations_of_href hc hhref hread
  closeArgument ha hf _ := made_closeArgument ha.outer hf ha.url

theorem making_iff : Making settings source s ↔ Keeping (madePieces settings source) s :=
  ⟨fun h => ⟨h.begun, h.blocks, fun e he => ⟨(h.environments e he).blocks, (h.environments e he).list⟩,
      fun i hi => ⟨(h.inline i hi).table, (h.inline i hi).fragments, (h.inline i hi).arguments⟩⟩,
    fun h => ⟨h.cursor, h.blocks, fun e he => ⟨(h.environments e he).blocks, (h.environments e he).list⟩,
      fun i hi => ⟨(h.inline i hi).table, (h.inline i hi).gathered, (h.inline i hi).arguments⟩⟩⟩

theorem Making.initial (settings : Settings) (source : Text) :
    Making settings source (.initial settings source) :=
  making_iff.mpr (.initial (.refl _))

/-- Every change keeps it that all is made of the source. -/
theorem Making.change (h : Making settings source s) (hchange : Change (.of settings source) s t) :
    Making settings source t :=
  making_iff.mpr ((making_iff.mp h).change (madePieces_closed settings source) hchange)

end Parse

/-! ## Documents -/

/-- All nodes of a document that is read are made of its source. -/
theorem allMade_of_parseDocument {options : Options} {parsed : Parsed}
    (h : parseDocument source options = .ok parsed) :
    ∃ settings, options.resolve = .ok settings ∧
      (Node.document parsed.document).AllMade settings source := by
  obtain ⟨settings, blocks, diagnostics, hsettings, houtcome, rfl⟩ := exists_of_parseDocument_ok h
  have hyields := Parse.yields_outcomeOf (fun _ _ => Parse.Making.change)
    (Parse.Making.initial settings source)
  rw [houtcome] at hyields
  obtain ⟨t, ht, -, -, heq⟩ := hyields
  obtain ⟨rfl, rfl⟩ := Prod.mk.inj heq
  refine ⟨settings, hsettings, .of_children trivial fun c hc => ?_⟩
  obtain ⟨b, hb, rfl⟩ := List.mem_map.mp hc
  exact ht.blocks b (List.mem_reverse.mp hb)

end LatexMarkdown
