import LatexMarkdown.Proofs.Spans.Reading
/-!
  What is finished is in order.

  Arguments, list items, cells and rows get their spans when they are closed, from where they began
  and where the cursor stands.  `ListLaid` and `TableLaid` say what an open list and an open table hold
  until then.  One lemma for each thing that is closed: `laid_closeArgument`, `laid_finishItem`,
  `laid_finishCell` and `laid_finishRow`.

  A cell that begins behind a dropped comment and ends at once begins behind the token passed last;
  that is where a row ends early.
-/
namespace LatexMarkdown.Parse

open Cursor (Reaches)

variable {source : Text} {keep : Bool} {lo mid hi hi' start stop : Nat} {c d : Cursor} {s : State}

/-! ## Arguments -/

/-- A finished argument is added behind the content that it interrupted. -/
theorem laid_closeArgument {purpose : Purpose} {argument outer : Fragments}
    (hp : ∀ m ∈ purpose.command?, m.token.start = start)
    (houter : Laid source keep lo start (outer.toList.map .inline))
    (hargument : Laid source keep start hi (argument.toList.map .inline)) (hlo : lo ≤ start)
    (hle : start ≤ stop) (hhi : hi ≤ stop) (hstop : stop ≤ source.length) :
    Laid source keep lo stop
      ((State.closeArgument purpose argument stop outer).toList.map .inline) := by
  have hchildren := (hargument.mono_right hhi).finish
  -- A node around the content, or around its characters.
  have hnode : ∀ n : Inline, n.info = .span start stop →
      Laid source keep start stop (n.children.map .inline) →
      (Node.inline n).Orderly source keep := by
    intro n hinfo hn
    have hstart : (Node.inline n).start = start := congrArg NodeInfo.start hinfo
    have hend : (Node.inline n).stop = stop := congrArg NodeInfo.stop hinfo
    refine .of_children (by omega) (by omega) ?_
    rw [hstart, hend]
    exact hn
  cases purpose with
  | spanning => exact houter.pushAll hchildren hlo hle
  | linkText command url =>
    obtain rfl := hp command rfl
    have htext : Laid source keep command.token.start stop
        ((if argument.finish.isEmpty then [.text (.span command.token.start stop) url]
          else argument.finish).map .inline) := by
      split
      · exact Laid.cons_iff.mpr ⟨hnode (.text (.span _ stop) url) rfl .nil, Nat.le_refl _,
          Nat.le_refl _, .nil⟩
      · exact hchildren
    exact houter.push (hnode (.link (.span _ stop) url _) rfl htext) hlo (Nat.le_refl _)
  | styled command style =>
    obtain rfl := hp command rfl
    -- Space at the edges goes outside, where the argument begins and where it ends.
    have hleading : ∀ b : Bool, Laid source keep lo command.token.start
        ((if b then outer.pushText command.token.start command.token.start [0x20]
          else outer).toList.map .inline) := by
      intro b
      split
      · exact houter.pushText hlo (Nat.le_refl _) (Nat.le_refl _) (Nat.le_trans hle hstop) _
      · exact houter
    have htrailing : ∀ g : Fragments, Laid source keep lo stop (g.toList.map .inline) →
        Laid source keep lo stop
          ((if argument.trailingSpace then g.pushText stop stop [0x20] else g).toList.map .inline) := by
      intro g hg
      split
      · exact hg.pushText (Nat.le_trans hlo hle) (Nat.le_refl _) (Nat.le_refl _) hstop _
      · exact hg
    simp only [State.closeArgument]
    split
    · exact (hleading _).mono_right hle
    · have houter' := hleading (argument.leadingSpace ||
        (argument.trailingSpace && argument.finish.isEmpty))
      refine htrailing _ ?_
      cases style with
      | strong =>
        exact houter'.push (hnode (.strong (.span _ stop) _) rfl hchildren) hlo (Nat.le_refl _)
      | emphasis =>
        exact houter'.push (hnode (.emphasis (.span _ stop) _) rfl hchildren) hlo (Nat.le_refl _)
      | code => exact houter'.push (hnode (.code (.span _ stop) _) rfl .nil) hlo (Nat.le_refl _)
      | plain => exact houter'.pushAll hchildren hlo hle

/-! ## List items -/

/-- A label goes in front of the content as strong text, and a space behind it. -/
theorem laid_labelled {label content : List Inline} {rest : List Node}
    (hlabel : Laid source keep start mid (label.map .inline))
    (hrest : Laid source keep mid hi (content.map .inline ++ rest)) (hlo : start ≤ mid)
    (hhi : mid ≤ hi) : Laid source keep start hi ((labelled label content).map .inline ++ rest) := by
  unfold labelled
  split
  · next first last hfirst hlast =>
    have hhead : (label.map Node.inline).head? = some (.inline first) := by
      rw [List.head?_map, hfirst]; rfl
    have htail : (label.map Node.inline).getLast? = some (.inline last) := by
      rw [List.getLast?_map, hlast]; rfl
    -- The strong text reaches from the first node of the label to the last.
    have htight := hlabel.tighten hhead htail
    obtain ⟨hstart, -, -⟩ := hlabel.inOrder.within (.inline first)
      (List.mem_map_of_mem (List.mem_of_mem_head? hfirst))
    obtain ⟨-, -, hstop⟩ := hlabel.inOrder.within (.inline last)
      (List.mem_map_of_mem (List.mem_of_mem_getLast? hlast))
    have hend := (hlabel.orderly (.inline last)
      (List.mem_map_of_mem (List.mem_of_mem_getLast? hlast))).spans.stop_le
    have hle : first.info.start ≤ last.info.stop := htight.le
      (by simp [List.ne_nil_of_mem (List.mem_of_mem_head? hfirst)])
    have hstrong : (Node.inline (.strong { start := first.info.start, stop := last.info.stop }
        label)).Orderly source keep := .of_children hle hend htight
    have hspace : (Node.inline (.text { start := last.info.stop, stop := last.info.stop }
        [0x20])).Orderly source keep := Inline.orderly_text (Nat.le_refl _) hend
    have hrest' := hrest.mono hstop (Nat.le_refl hi)
    have hend' := Nat.le_trans hstop hhi
    simp only
    split
    · next hempty =>
      rw [List.isEmpty_iff.mp hempty] at hrest'
      exact Laid.cons_iff.mpr ⟨hstrong, hstart, hend', hrest'⟩
    · exact Laid.cons_iff.mpr ⟨hstrong, hstart, hend',
        Laid.cons_iff.mpr ⟨hspace, Nat.le_refl _, hend', hrest'⟩⟩
  · exact hrest.mono hlo (Nat.le_refl _)

/-- A list item holds its label and its blocks, of which the first paragraph lends it its content. -/
theorem laid_listItem {label : List Inline} {blocks : List Block}
    (hlabel : Laid source keep start mid (label.map .inline))
    (hblocks : Laid source keep mid hi (blocks.map .block)) (hlo : start ≤ mid) (hhi : mid ≤ hi)
    (stop : Nat) :
    Laid source keep start hi (Node.listItem (listItem start stop label blocks)).children := by
  have hempty : ∀ rest : List Node, Laid source keep mid hi rest →
      Laid source keep start hi ((labelled label []).map .inline ++ rest) :=
    fun _ hrest => laid_labelled hlabel hrest hlo hhi
  cases blocks with
  | nil => exact hempty [] .nil
  | cons b rest =>
    cases b with
    | paragraph info children =>
      obtain ⟨hb, hstart, hstop, hrest⟩ := Laid.cons_iff.mp hblocks
      have hchildren := (hb.laid_children (by simp [Node.kind, Block.kind])).mono hstart (Nat.le_refl _)
      have hparagraph := Nat.le_trans hstart hb.le
      exact laid_labelled hlabel (hchildren.append hrest hparagraph hstop) hlo hhi
    | _ => exact hempty _ hblocks

/-- What an open list that begins at `start` holds: finished items, and the label of the open one,
which ends by `mid`.  What comes before the first item marker may begin behind `hi`, where the blocks
of the item end. -/
structure ListLaid (source : Text) (keep : Bool) (start mid hi : Nat) (l : OpenList) : Prop where
  items : Laid source keep start l.item.start (l.items.reverse.map .listItem)
  start_le : start ≤ l.item.start
  label : Laid source keep l.item.start mid (l.item.label.map .inline)
  le : l.item.start ≤ mid
  settled : mid ≤ hi ∨ (l.item.implicit = true ∧ l.item.label = [])

theorem ListLaid.mono {l : OpenList} (h : ListLaid source keep start mid hi l) (hhi : hi ≤ hi') :
    ListLaid source keep start mid hi' l :=
  { h with settled := h.settled.imp_left fun hmid => Nat.le_trans hmid hhi }

/-- The items of a list when the open one is finished. -/
theorem laid_finishItem {e : OpenEnvironment} {l : OpenList}
    (h : ListLaid source keep start mid s.cursor.lastStop l)
    (hblocks : Laid source keep mid s.cursor.lastStop (e.blocks.reverse.map .block))
    (hmid : mid ≤ s.cursor.current.start) (hc : Tiled source keep s.cursor) :
    Laid source keep start s.cursor.current.start
      ((s.finishItem e l).2.reverse.map .listItem) := by
  -- With and without a marker an item holds the same, so it does not matter which one it is.
  have hitem : ∀ i : ListItem, (Node.listItem i).start = l.item.start →
      (Node.listItem i).stop = s.cursor.lastStop →
      (Node.listItem i).children
        = (Node.listItem (listItem l.item.start s.cursor.lastStop l.item.label
            e.blocks.reverse)).children →
      mid ≤ s.cursor.lastStop →
      Laid source keep start s.cursor.current.start ((i :: l.items).reverse.map .listItem) := by
    intro i hstart hstop hchildren hle
    have hend := hc.lastStop_le_length
    have hbefore := hc.lastStop_le
    have hupright := Nat.le_trans h.le hle
    have horderly : (Node.listItem i).Orderly source keep := by
      refine .of_children (by omega) (by omega) ?_
      rw [hchildren, hstart, hstop]
      exact laid_listItem h.label hblocks h.le hle _
    rw [List.reverse_cons, List.map_append]
    have hitems := h.items.mono_right (Nat.le_of_eq hstart.symm)
    exact Laid.concat_iff.mpr ⟨hitems, horderly, hstart ▸ h.start_le, by omega⟩
  simp only [State.finishItem]
  split
  · next hexplicit =>
    refine hitem _ rfl rfl rfl (h.settled.resolve_right fun hl => ?_)
    simp [hl.1] at hexplicit
  · split
    · exact h.items.mono_right (Nat.le_trans h.le hmid)
    · next hne => exact hitem _ rfl rfl rfl (hblocks.le (by simpa using hne))

/-! ## Tables -/

/-- What an open table holds, with the cursor in its current cell: finished rows and finished cells.
A cell begins with the current token, or with one that was passed. -/
structure TableLaid (source : Text) (keep : Bool) (c : Cursor) (table : OpenTable) : Prop where
  rows : Laid source keep table.marker.token.start table.rowStart
    (table.rows.reverse.map .tableRow)
  cells : Laid source keep table.rowStart (min table.cellStart c.lastStop)
    (table.cells.reverse.map .tableCell)
  marker_le : table.marker.token.start ≤ table.rowStart
  rowStart_le : table.rowStart ≤ table.cellStart
  begun : table.cellStart ≤ c.lastStop ∨ table.cellStart = c.current.start
  spanning : table.span = 1 ∨ table.cellStart ≤ c.lastStop

namespace TableLaid

variable {table : OpenTable} {content : Fragments}

theorem cellStart_le (h : TableLaid source keep c table) (hc : Tiled source keep c) :
    table.cellStart ≤ c.current.start :=
  h.begun.elim (fun hle => Nat.le_trans hle hc.lastStop_le) Nat.le_of_eq

theorem reaches (h : TableLaid source keep c table) (hc : Tiled source keep c)
    (hd : c.Reaches d) : TableLaid source keep d table := by
  have hle := hc.lastStop_le_lastStop hd
  have hcells := h.cells.mono_right (show _ ≤ min table.cellStart d.lastStop by omega)
  refine { h with cells := hcells, begun := ?_, spanning := h.spanning.imp_right (by omega) }
  rcases hc.eq_or_le hd with rfl | hpast
  · exact h.begun
  · have hbegun := h.cellStart_le hc
    have hspan := hc.start_le_stop
    exact .inl (by omega)

end TableLaid

/-- Empty cells at one place. -/
theorem laid_replicate (hstop : stop ≤ source.length) (n : Nat) :
    Laid source keep stop stop
      ((List.replicate n { info := .span stop stop, children := [] }).map .tableCell) := by
  have hcell : (Node.tableCell { info := .span stop stop, children := [] }).Orderly source keep :=
    .of_children_nil (Nat.le_refl _) hstop rfl
  induction n with
  | zero => exact .nil
  | succ n ih => exact Laid.cons_iff.mpr ⟨hcell, Nat.le_refl _, Nat.le_refl _, ih⟩

variable {table : OpenTable} {content : Fragments}

/-- A finished cell ends where the cursor stands, unless it begins behind that; then it is empty. -/
theorem finishCell_cases (h : TableLaid source keep s.cursor table) (hc : Tiled source keep s.cursor)
    (hcontent : Laid source keep table.cellStart s.cursor.lastStop
      (content.toList.map .inline)) :
    (table.cellStart ≤ s.cursor.lastStop ∧ Laid source keep table.rowStart s.cursor.lastStop
        ((s.finishCell table content).cells.reverse.map .tableCell)) ∨
      (s.cursor.lastStop < table.cellStart ∧ (s.finishCell table content).cells
        = { info := .span table.cellStart table.cellStart, children := [] } :: table.cells) := by
  have hend := hc.lastStop_le_length
  by_cases hle : table.cellStart ≤ s.cursor.lastStop
  · -- The cell, and behind it an empty cell for each further column that it spans.
    refine .inl ⟨hle, ?_⟩
    have hcell : (Node.tableCell
        { info := .span table.cellStart s.cursor.lastStop, children := content.finish }).Orderly
          source keep := .of_children hle hend hcontent.finish
    have hcells := (h.cells.concat hcell h.rowStart_le (Nat.min_le_left _ _)).append
      (laid_replicate hend (table.span - 1)) (Nat.le_trans h.rowStart_le hle) (Nat.le_refl _)
    simpa [State.finishCell, Nat.max_eq_right hle] using hcells
  · -- Content would have to begin behind its end, and no columns were spanned.
    have hlt := Nat.lt_of_not_le hle
    refine .inr ⟨hlt, ?_⟩
    have hspan := h.spanning.resolve_right hle
    have hnil : content.toList = [] := by
      by_contra hne
      exact hle (hcontent.le (by simpa using hne))
    have hfinish : content.finish = [] := by rw [Fragments.finish, hnil]; rfl
    simp [State.finishCell, hspan, hfinish, Nat.max_eq_left (Nat.le_of_lt hlt)]

/-- The cells of a row when the current one is finished. -/
theorem laid_finishCell (h : TableLaid source keep s.cursor table) (hc : Tiled source keep s.cursor)
    (hcontent : Laid source keep table.cellStart s.cursor.lastStop (content.toList.map .inline)) :
    Laid source keep table.rowStart s.cursor.current.start
      ((s.finishCell table content).cells.reverse.map .tableCell) := by
  rcases finishCell_cases h hc hcontent with ⟨-, hcells⟩ | ⟨-, hcells⟩
  · exact hcells.mono_right hc.lastStop_le
  · have hstop := Nat.le_trans (h.cellStart_le hc) (Nat.le_trans hc.start_le_stop hc.stop_le)
    have hempty : (Node.tableCell
        { info := .span table.cellStart table.cellStart, children := [] }).Orderly source keep :=
      .of_children_nil (Nat.le_refl _) hstop rfl
    rw [hcells, List.reverse_cons, List.map_append]
    exact (h.cells.concat hempty h.rowStart_le (Nat.min_le_left _ _)).mono_right
      (h.cellStart_le hc)

/-- A row that is kept ends where the cursor stands.  Its last cell may begin behind that. -/
theorem orderly_finishRow (h : TableLaid source keep s.cursor table)
    (hc : Tiled source keep s.cursor)
    (hcontent : Laid source keep table.cellStart s.cursor.lastStop (content.toList.map .inline))
    (hany : (s.finishCell table content).cells.reverse.any (!·.children.isEmpty) = true) :
    table.rowStart ≤ s.cursor.lastStop ∧
      (Node.tableRow { info := .span table.rowStart s.cursor.lastStop,
                       cells := (s.finishCell table content).cells.reverse }).Orderly source keep := by
  have hend := hc.lastStop_le_length
  rcases finishCell_cases h hc hcontent with ⟨hle, hcells⟩ | ⟨hlt, hcells⟩
  · have hupright := Nat.le_trans h.rowStart_le hle
    exact ⟨hupright, .of_children hupright hend hcells⟩
  · -- There are other cells in the row, since this one is empty.
    have hne : table.cells ≠ [] := by
      rintro hnil
      simp [hcells, hnil] at hany
    have hupright : table.rowStart ≤ s.cursor.lastStop :=
      Nat.le_trans (h.cells.le (by simpa using hne)) (Nat.min_le_right _ _)
    have hstop := Nat.le_trans (h.cellStart_le hc) (Nat.le_trans hc.start_le_stop hc.stop_le)
    have hgap := hc.gap
    rw [← h.begun.resolve_left (Nat.not_le_of_lt hlt)] at hgap
    -- The cell begins with the current token, so what lies before it are dropped comments.
    have hall := laid_finishCell h hc hcontent
    refine ⟨hupright, .of_spans ⟨hupright, hend, .inr ⟨_, table.cells.reverse, table.cellStart,
      rfl, ?_⟩⟩ hall.orderly⟩
    exact { cells_eq := by simp [hcells]
            inOrder := (h.cells.mono_right (Nat.min_le_right _ _)).inOrder
            lt := hlt, gap := hgap, le := hstop }

/-- The rows of a table when the current cell and its row are finished. -/
theorem laid_finishRow (h : TableLaid source keep s.cursor table) (hc : Tiled source keep s.cursor)
    (hcontent : Laid source keep table.cellStart s.cursor.lastStop (content.toList.map .inline)) :
    Laid source keep table.marker.token.start s.cursor.current.start
      ((s.finishRow (s.finishCell table content)).rows.reverse.map .tableRow) := by
  simp only [State.finishRow]
  split
  · next hany =>
    obtain ⟨hupright, hrow⟩ := orderly_finishRow h hc hcontent hany
    have hmax : max table.rowStart s.cursor.lastStop = s.cursor.lastStop := Nat.max_eq_right hupright
    have hrows := (h.rows.concat hrow h.marker_le (Nat.le_refl _)).mono_right hc.lastStop_le
    simpa [State.finishCell, hmax] using hrows
  · exact h.rows.mono_right (Nat.le_trans h.rowStart_le (h.cellStart_le hc))

end LatexMarkdown.Parse
