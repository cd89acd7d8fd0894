import LatexMarkdown.Proofs.Fencing
import LatexMarkdown.Proofs.LineEndings.Content
/-!
  Trees that differ in line breaks, written.

  Code is cut into lines, and a carriage return before a line feed goes with the line break; so code is
  written alike whichever way its lines end (`Markdown.codeBlockLines_of_returned`).  Every other text
  is written as it stands (`Node.written?`).  Where none of these has a line feed, two trees that
  differ in line breaks alone are written alike: `Markdown.blocksLines_of_returned`.
-/
namespace LatexMarkdown

/-- A text that is written as it stands. -/
def Node.written? : Node → Option Text
  | .inline (.text _ t) | .inline (.code _ t) | .inline (.math _ t) | .block (.math _ t _) => some t
  | .inline (.link _ url _) => some url
  | _ => none

/-- From a node down, no line feed stands in a text that is written as it is. -/
def Node.WrittenUnbroken (n : Node) : Prop :=
  ∀ m ∈ n.tree.preorder, ∀ t ∈ m.written?, Text.Unbroken t

namespace Node.WrittenUnbroken

variable {n : Node}

/-- The node itself. -/
theorem unbroken (h : n.WrittenUnbroken) {t : Text} (ht : n.written? = some t) : t.Unbroken :=
  h n (mem_preorder_tree.mpr (.inl rfl)) t ht

theorem children (h : n.WrittenUnbroken) : ∀ c ∈ n.children, c.WrittenUnbroken := fun c hc m hm =>
  h m (mem_preorder_tree.mpr (.inr ⟨c, hc, hm⟩))

theorem mem_children {α : Type} {f : α → Node} {l : List α} (h : n.WrittenUnbroken)
    (hsub : l.map f ⊆ n.children) : ∀ a ∈ l, (f a).WrittenUnbroken := fun _ ha =>
  h.children _ (hsub (List.mem_map_of_mem ha))

end Node.WrittenUnbroken

namespace Markdown

/-! ## Code -/

/-- The lines of a code are the same with carriage returns. -/
theorem codeLines_withReturns {t : Text} (h : 0x0D ∉ t) : codeLines t.withReturns = codeLines t := by
  induction t using Text.line_induction with
  | last l hl => rw [Text.withReturns_of_not_mem hl]
  | line l t hl ih =>
    have hline : 0x0D ∉ l := fun hmem => h (List.mem_append_left _ hmem)
    have hrest : 0x0D ∉ t := fun hmem => h (List.mem_append_right _ (List.mem_cons_of_mem _ hmem))
    have hreturn : Text.Unbroken (l ++ [0x0D]) := hl.append (by decide)
    have heq : Text.withReturns (l ++ 0x0A :: t) = (l ++ [0x0D]) ++ 0x0A :: t.withReturns := by
      rw [Text.withReturns_append, Text.withReturns_of_not_mem hl, Text.withReturns_lineFeed,
        List.append_assoc]
      rfl
    have hdrop : Text.dropReturn (l ++ [0x0D]) = l := by simp [Text.dropReturn]
    have hkeep : l.dropReturn = l :=
      if_neg fun hlast => hline (List.mem_of_getLast? hlast)
    rw [heq, codeLines_append_lineFeed hreturn, codeLines_append_lineFeed hl, hdrop, hkeep, ih hrest]

theorem longestBackticks_withReturns (run : Nat) (t : Text) :
    longestBackticks run t.withReturns = longestBackticks run t := by
  induction t generalizing run with
  | nil => rfl
  | cons u t ih =>
    by_cases hu : u = 0x0A
    · subst hu
      simp [longestBackticks, ih]
    · rw [Text.withReturns_cons hu, longestBackticks, longestBackticks, ih, ih]

theorem codeBlockLines_of_returned {t t' : Text} (h : t.Returned t') (language : Option Text) :
    codeBlockLines t' language = codeBlockLines t language := by
  simp only [codeBlockLines, h.eq_nil_iff]
  rw [h.eq, codeLines_withReturns h.clean, longestBackticks_withReturns]

/-! ## Inline content -/

theorem isMath_of_returned {n n' : Inline} (h : n.Returned n') : isMath n' = isMath n := by
  cases h <;> rfl

mutual

theorem spanText_of_returned (hardBreak : Text) (afterMath : Bool) : ∀ {n n' : Inline},
    n.Returned n' → (Node.inline n).WrittenUnbroken →
      spanText hardBreak afterMath n' = spanText hardBreak afterMath n
  | _, _, .text _ _ h, hn => by rw [spanText, spanText, h.eq_of_unbroken (hn.unbroken rfl)]
  | _, _, .code _ _ h, hn => by rw [spanText, spanText, h.eq_of_unbroken (hn.unbroken rfl)]
  | _, _, .math _ _ h, hn => by rw [spanText, spanText, h.eq_of_unbroken (hn.unbroken rfl)]
  | _, _, .hardBreak _ _, _ => by rw [spanText, spanText]
  | _, _, .emphasis _ _ h, hn => by
    rw [spanText, spanText, inlineText_of_returned hardBreak false h
      (hn.mem_children (List.Subset.refl _))]
  | _, _, .strong _ _ h, hn => by
    rw [spanText, spanText, inlineText_of_returned hardBreak false h
      (hn.mem_children (List.Subset.refl _))]
  | _, _, .link _ _ hurl h, hn => by
    rw [spanText, spanText, hurl.eq_of_unbroken (hn.unbroken rfl),
      inlineText_of_returned hardBreak false h (hn.mem_children (List.Subset.refl _))]

theorem inlineText_of_returned (hardBreak : Text) (afterMath : Bool) : ∀ {ns ns' : List Inline},
    List.Forall₂ Inline.Returned ns ns' → (∀ n ∈ ns, (Node.inline n).WrittenUnbroken) →
      inlineText hardBreak afterMath ns' = inlineText hardBreak afterMath ns
  | _, _, .nil, _ => rfl
  | _, _, .cons h hrest, hns => by
    rw [inlineText, inlineText, isMath_of_returned h,
      spanText_of_returned hardBreak afterMath h (hns _ List.mem_cons_self),
      inlineText_of_returned hardBreak _ hrest fun n hn => hns n (List.mem_cons_of_mem _ hn)]

end

variable {cs cs' : List Inline}

theorem oneLine_of_returned (h : List.Forall₂ Inline.Returned cs cs')
    (hcs : ∀ n ∈ cs, (Node.inline n).WrittenUnbroken) : oneLine cs' = oneLine cs :=
  inlineText_of_returned _ _ h hcs

theorem inlineLines_of_returned (h : List.Forall₂ Inline.Returned cs cs')
    (hcs : ∀ n ∈ cs, (Node.inline n).WrittenUnbroken) : inlineLines cs' = inlineLines cs := by
  rw [inlineLines, inlineLines, inlineText_of_returned _ _ h hcs]

/-! ## Tables -/

theorem columnCount_of_returned {rows rows' : List TableRow}
    (h : List.Forall₂ TableRow.Returned rows rows') :
    TableRow.columnCount rows' = TableRow.columnCount rows := by
  have hfold : ∀ n, rows'.foldl (fun n r => max n r.cells.length) n
      = rows.foldl (fun n r => max n r.cells.length) n := by
    induction h with
    | nil => exact fun _ => rfl
    | @cons r r' rows rows' hr _ ih =>
      intro n
      have hlen : r'.cells.length = r.cells.length := (List.Forall₂.length_eq hr).symm
      rw [List.foldl_cons, List.foldl_cons, hlen, ih]
  exact hfold 0

theorem rowLine_of_returned {r r' : TableRow} (h : r.Returned r')
    (hr : (Node.tableRow r).WrittenUnbroken) (columns : Nat) : rowLine columns r' = rowLine columns r := by
  have hcells : r'.cells.map cellText = r.cells.map cellText := by
    have hunbroken : ∀ c ∈ r.cells, (Node.tableCell c).WrittenUnbroken :=
      hr.mem_children (List.Subset.refl _)
    have hcells : List.Forall₂ TableCell.Returned r.cells r'.cells := h
    generalize r.cells = cells, r'.cells = cells' at hcells hunbroken
    induction hcells with
    | nil => rfl
    | @cons c c' cells cells' hc _ ih =>
      have hone : cellText c' = cellText c := by
        rw [cellText, cellText, oneLine_of_returned hc
          ((hunbroken c List.mem_cons_self).mem_children (List.Subset.refl _))]
      rw [List.map_cons, List.map_cons, hone, ih fun c hc => hunbroken c (List.mem_cons_of_mem _ hc)]
  simp only [rowLine, hcells]

theorem tableLines_of_returned {rows rows' : List TableRow}
    (h : List.Forall₂ TableRow.Returned rows rows')
    (hrows : ∀ r ∈ rows, (Node.tableRow r).WrittenUnbroken) : tableLines rows' = tableLines rows := by
  have hlines : ∀ (columns : Nat) {rows rows' : List TableRow},
      List.Forall₂ TableRow.Returned rows rows' →
      (∀ r ∈ rows, (Node.tableRow r).WrittenUnbroken) →
      rows'.map (rowLine columns) = rows.map (rowLine columns) := by
    intro columns rows rows' h hrows
    induction h with
    | nil => rfl
    | cons hr _ ih =>
      rw [List.map_cons, List.map_cons, rowLine_of_returned hr (hrows _ List.mem_cons_self),
        ih fun r hr => hrows r (List.mem_cons_of_mem _ hr)]
  have hcount := columnCount_of_returned h
  cases h with
  | nil => rfl
  | cons hr hrest =>
    simp only [tableLines, hcount]
    rw [rowLine_of_returned hr (hrows _ List.mem_cons_self),
      hlines _ hrest fun r hr => hrows r (List.mem_cons_of_mem _ hr)]

/-! ## Blocks -/

mutual

theorem blockLines_of_returned (icon : Text) (depth : Nat) : ∀ (b : Block) {b' : Block},
    b.Returned b' → (Node.block b).WrittenUnbroken → blockLines icon depth b' = blockLines icon depth b
  | .paragraph _ _, _, .paragraph _ _ h, hb => by
    rw [blockLines, blockLines, inlineLines_of_returned h (hb.mem_children (List.Subset.refl _))]
  | .heading _ _ _, _, .heading _ _ _ h, hb => by
    rw [blockLines, blockLines, oneLine_of_returned h (hb.mem_children (List.Subset.refl _))]
  | .quote _ bs, _, .quote _ _ h, hb => by
    rw [blockLines, blockLines,
      blocksLines_of_returned icon 0 bs h (hb.mem_children (List.Subset.refl _))]
  | .list _ _ items, _, .list _ _ ordered h, hb => by
    rw [blockLines, blockLines,
      itemsLines_of_returned icon depth ordered 0 items h (hb.mem_children (List.Subset.refl _))]
  | .code _ _ _, _, .code _ _ h language, _ => by
    rw [blockLines, blockLines, codeBlockLines_of_returned h]
  | .table _ _, _, .table _ _ h, hb => by
    rw [blockLines, blockLines, tableLines_of_returned h (hb.mem_children (List.Subset.refl _))]
  | .math _ _ _, _, .math _ _ h _, hb => by
    rw [blockLines, blockLines, h.eq_of_unbroken (hb.unbroken rfl)]
termination_by structural b => b

/-- Blocks that differ in line breaks are written alike, where no line feed is written as it stands. -/
theorem blocksLines_of_returned (icon : Text) (depth : Nat) : ∀ (bs : List Block) {bs' : List Block},
    List.Forall₂ Block.Returned bs bs' → (∀ b ∈ bs, (Node.block b).WrittenUnbroken) →
      blocksLines icon depth bs' = blocksLines icon depth bs
  | [], _, .nil, _ => rfl
  | b :: rest, _, .cons h hrest, hbs => by
    rw [blocksLines, blocksLines, blockLines_of_returned icon depth b h (hbs _ List.mem_cons_self),
      blocksLines_of_returned icon depth rest hrest fun b hb => hbs b (List.mem_cons_of_mem _ hb)]
termination_by structural bs => bs

theorem itemsLines_of_returned (icon : Text) (depth : Nat) (ordered : Bool) (index : Nat) :
    ∀ (items : List ListItem) {items' : List ListItem}, List.Forall₂ ListItem.Returned items items' →
      (∀ item ∈ items, (Node.listItem item).WrittenUnbroken) →
      itemsLines icon depth ordered index items' = itemsLines icon depth ordered index items
  | [], _, .nil, _ => rfl
  | ⟨_, _, bs⟩ :: rest, _, .cons (.mk _ _ hcs hbs) hrest, hitems => by
    have hitem := hitems _ List.mem_cons_self
    rw [itemsLines, itemsLines,
      inlineLines_of_returned hcs (hitem.mem_children (List.subset_append_left _ _)),
      nestedLines_of_returned icon depth bs hbs (hitem.mem_children (List.subset_append_right _ _)),
      itemsLines_of_returned icon depth ordered (index + 1) rest hrest
        fun item hitem => hitems item (List.mem_cons_of_mem _ hitem)]
termination_by structural items => items

theorem nestedLines_of_returned (icon : Text) (depth : Nat) : ∀ (bs : List Block) {bs' : List Block},
    List.Forall₂ Block.Returned bs bs' → (∀ b ∈ bs, (Node.block b).WrittenUnbroken) →
      nestedLines icon depth bs' = nestedLines icon depth bs
  | [], _, .nil, _ => rfl
  | b :: rest, _, .cons h hrest, hbs => by
    have hhead := hbs _ List.mem_cons_self
    have hlines := blockLines_of_returned icon depth b h hhead
    have hnested := nestedLines_of_returned icon depth rest hrest
      fun b hb => hbs b (List.mem_cons_of_mem _ hb)
    -- Only a list is written one level further, and it stays a list.
    cases b with
    | list i ordered items =>
      cases h with
      | list _ _ _ h =>
        have hitems := itemsLines_of_returned icon (depth + 1) ordered 0 items h
          (hhead.mem_children (List.Subset.refl _))
        rw [nestedLines, nestedLines, hitems, hnested]
    | _ =>
      cases h
      simp only [nestedLines, hnested, hlines]
termination_by structural bs => bs

end

/-! ## Room -/

mutual

theorem extents_of_returned : ∀ (b : Block) {b' : Block}, b.Returned b' → b'.extents = b.extents
  | .paragraph _ _, _, .paragraph _ _ _ => rfl
  | .heading _ _ _, _, .heading _ _ _ _ => rfl
  | .code _ _ _, _, .code _ _ _ _ => rfl
  | .math _ _ _, _, .math _ _ _ _ => rfl
  | .table _ _, _, .table _ _ h => by
    rw [Block.extents, Block.extents, columnCount_of_returned h, h.length_eq]
  | .quote _ bs, _, .quote _ _ h => by
    rw [Block.extents, Block.extents, allExtents_of_returned bs h]
  | .list _ _ items, _, .list _ _ _ h => by
    rw [Block.extents, Block.extents, itemExtents_of_returned items h]
termination_by structural b => b

theorem allExtents_of_returned : ∀ (bs : List Block) {bs' : List Block},
    List.Forall₂ Block.Returned bs bs' → Block.allExtents bs' = Block.allExtents bs
  | [], _, .nil => rfl
  | b :: rest, _, .cons h hrest => by
    rw [Block.allExtents, Block.allExtents, extents_of_returned b h,
      allExtents_of_returned rest hrest]
termination_by structural bs => bs

theorem itemExtents_of_returned : ∀ (items : List ListItem) {items' : List ListItem},
    List.Forall₂ ListItem.Returned items items' →
      ListItem.allExtents items' = ListItem.allExtents items
  | [], _, .nil => rfl
  | ⟨_, _, bs⟩ :: rest, _, .cons (.mk _ _ _ hbs) hrest => by
    rw [ListItem.allExtents, ListItem.allExtents, allExtents_of_returned bs hbs,
      itemExtents_of_returned rest hrest]
termination_by structural items => items

end

/-- There is room for both or for neither. -/
theorem sizeError?_of_returned {bs bs' : List Block} (h : List.Forall₂ Block.Returned bs bs') :
    sizeError? bs' = sizeError? bs := by
  rw [sizeError?, sizeError?, allExtents_of_returned bs h]

end Markdown

end LatexMarkdown
