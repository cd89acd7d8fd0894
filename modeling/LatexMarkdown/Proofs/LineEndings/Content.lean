import LatexMarkdown.Proofs.Likeness.Relation
import LatexMarkdown.Proofs.LineEndings.Returns
import LatexMarkdown.Proofs.Making
import Mathlib.Data.List.Forall2
/-!
  Content made of a source with carriage returns.

  `Inline.Returned` and `Block.Returned` relate two trees that have the same shape and differ, besides
  their places, in the line breaks of their texts (`Text.Returned`).  Gathering content keeps this, and
  so does bringing it into normal form, where the space of texts is collapsed and no longer differs at
  all.  So reading two such sources is a likeness (`Parse.Likeness.returns`).
-/
namespace LatexMarkdown

/-! ## Trees -/

/-- Two inline nodes that differ in places and line breaks alone. -/
inductive Inline.Returned : Inline → Inline → Prop
  | text (i i' : NodeInfo) {t t' : Text} (h : t.Returned t') : Returned (.text i t) (.text i' t')
  | emphasis (i i' : NodeInfo) {cs cs' : List Inline} (h : List.Forall₂ Returned cs cs') :
      Returned (.emphasis i cs) (.emphasis i' cs')
  | strong (i i' : NodeInfo) {cs cs' : List Inline} (h : List.Forall₂ Returned cs cs') :
      Returned (.strong i cs) (.strong i' cs')
  | code (i i' : NodeInfo) {t t' : Text} (h : t.Returned t') : Returned (.code i t) (.code i' t')
  | link (i i' : NodeInfo) {url url' : Text} {cs cs' : List Inline} (h : url.Returned url')
      (hcs : List.Forall₂ Returned cs cs') : Returned (.link i url cs) (.link i' url' cs')
  | math (i i' : NodeInfo) {t t' : Text} (h : t.Returned t') : Returned (.math i t) (.math i' t')
  | hardBreak (i i' : NodeInfo) : Returned (.hardBreak i) (.hardBreak i')

/-- Two table cells that differ in places and line breaks alone. -/
def TableCell.Returned (c c' : TableCell) : Prop := List.Forall₂ Inline.Returned c.children c'.children

/-- Two table rows that differ in places and line breaks alone. -/
def TableRow.Returned (r r' : TableRow) : Prop := List.Forall₂ TableCell.Returned r.cells r'.cells

mutual

/-- Two blocks that differ in places and line breaks alone. -/
inductive Block.Returned : Block → Block → Prop
  | paragraph (i i' : NodeInfo) {cs cs' : List Inline} (h : List.Forall₂ Inline.Returned cs cs') :
      Block.Returned (.paragraph i cs) (.paragraph i' cs')
  | heading (i i' : NodeInfo) (level : Number) {cs cs' : List Inline}
      (h : List.Forall₂ Inline.Returned cs cs') :
      Block.Returned (.heading i level cs) (.heading i' level cs')
  | quote (i i' : NodeInfo) {bs bs' : List Block} (h : List.Forall₂ Block.Returned bs bs') :
      Block.Returned (.quote i bs) (.quote i' bs')
  | list (i i' : NodeInfo) (ordered : Bool) {items items' : List ListItem}
      (h : List.Forall₂ ListItem.Returned items items') :
      Block.Returned (.list i ordered items) (.list i' ordered items')
  | code (i i' : NodeInfo) {t t' : Text} (h : t.Returned t') (language : Option Text) :
      Block.Returned (.code i t language) (.code i' t' language)
  | table (i i' : NodeInfo) {rows rows' : List TableRow}
      (h : List.Forall₂ TableRow.Returned rows rows') : Block.Returned (.table i rows) (.table i' rows')
  | math (i i' : NodeInfo) {t t' : Text} (h : t.Returned t') (environment : Option Text) :
      Block.Returned (.math i t environment) (.math i' t' environment)

/-- Two list items that differ in places and line breaks alone. -/
inductive ListItem.Returned : ListItem → ListItem → Prop
  | mk (i i' : NodeInfo) {cs cs' : List Inline} {bs bs' : List Block}
      (hcs : List.Forall₂ Inline.Returned cs cs') (hbs : List.Forall₂ Block.Returned bs bs') :
      ListItem.Returned ⟨i, cs, bs⟩ ⟨i', cs', bs'⟩

end

/-- Other marks make no difference. -/
theorem ListItem.Returned.withInfo {item item' : ListItem} (h : item.Returned item')
    (i i' : NodeInfo) : ListItem.Returned { item with info := i } { item' with info := i' } := by
  cases h with
  | mk _ _ hcs hbs => exact .mk i i' hcs hbs

/-! ## Normal form -/

namespace Inline

variable {n n' : Inline} {ns ns' : List Inline}

namespace Returned

theorem isHardBreak (h : n.Returned n') : n'.isHardBreak = n.isHardBreak := by cases h <;> rfl

theorem isEmptyText (h : n.Returned n') : n'.isEmptyText = n.isEmptyText := by
  cases h with
  | text i i' h =>
    rw [Inline.isEmptyText, Inline.isEmptyText, Bool.eq_iff_iff, List.isEmpty_iff, List.isEmpty_iff,
      h.eq_nil_iff]
  | _ => rfl

mutual

theorem plainText : ∀ {n n' : Inline}, n.Returned n' → n.plainText.Returned n'.plainText
  | _, _, .text _ _ h | _, _, .code _ _ h | _, _, .math _ _ h => h
  | _, _, .hardBreak _ _ => .of_forall (by simp [Inline.plainText, CodeUnit.isLineBreak])
  | _, _, .emphasis _ _ h | _, _, .strong _ _ h | _, _, .link _ _ _ h => plainTextOf h

theorem plainTextOf : ∀ {ns ns' : List Inline}, List.Forall₂ Returned ns ns' →
    (Inline.plainTextOf ns).Returned (Inline.plainTextOf ns')
  | _, _, .nil => .nil
  | _, _, .cons h hrest => (plainText h).append (plainTextOf hrest)

end

end Returned

/-- Two nodes are texts, or neither is. -/
theorem Returned.cases_text (h : n.Returned n') :
    (∃ i i' t t', n = .text i t ∧ n' = .text i' t' ∧ t.Returned t') ∨
      (n.isText = false ∧ n'.isText = false) := by
  cases h with
  | text i i' h => exact .inl ⟨i, i', _, _, rfl, rfl, h⟩
  | _ => exact .inr ⟨rfl, rfl⟩

theorem returned_mergeInto (h : n.Returned n') (hrest : List.Forall₂ Returned ns ns') :
    List.Forall₂ Returned (mergeInto n ns) (mergeInto n' ns') := by
  obtain ⟨i, i', t, t', rfl, rfl, ht⟩ | ⟨hn, hn'⟩ := h.cases_text
  · cases hrest with
    | nil => exact .cons h .nil
    | @cons m m' ms ms' hm hrest =>
      obtain ⟨j, j', s, s', rfl, rfl, hs⟩ | ⟨hother, hother'⟩ := hm.cases_text
      · exact .cons (.text _ _ (ht.append hs)) hrest
      · rw [mergeInto_cons_of_isText hother, mergeInto_cons_of_isText hother']
        exact .cons h (.cons hm hrest)
  · rw [mergeInto_of_isText hn, mergeInto_of_isText hn']
    exact .cons h hrest

theorem returned_mergeTexts (h : List.Forall₂ Returned ns ns') :
    List.Forall₂ Returned (mergeTexts ns) (mergeTexts ns') := by
  induction h with
  | nil => exact .nil
  | cons h _ ih => exact returned_mergeInto h ih

theorem edgeFirst_of_returned (h : List.Forall₂ Returned ns ns') : edgeFirst ns' = edgeFirst ns := by
  cases h with
  | nil => rfl
  | cons h _ => exact h.isHardBreak

theorem returned_tidyTexts (h : List.Forall₂ Returned ns ns') (atEdge : Bool) :
    List.Forall₂ Returned (tidyTexts atEdge ns) (tidyTexts atEdge ns') := by
  induction h generalizing atEdge with
  | nil => exact .nil
  | @cons n n' ns ns' h hrest ih =>
    obtain ⟨i, i', t, t', rfl, rfl, ht⟩ | ⟨hn, hn'⟩ := h.cases_text
    · rw [tidyTexts, tidyTexts, edgeFirst_of_returned hrest, ht.collapse (by decide) (by decide)]
      -- Collapsed and trimmed, the text has no line break left.
      refine .cons (.text _ _ (.of_forall fun u hu => ?_)) (ih false)
      exact Text.isLineBreak_of_mem_collapse (by decide) (by decide) (subset_trimmed _ _ _ hu)
    · rw [tidyTexts_cons_of_isText hn, tidyTexts_cons_of_isText hn', h.isHardBreak]
      exact .cons h (ih _)

theorem returned_dropWhile (h : List.Forall₂ Returned ns ns') :
    List.Forall₂ Returned (ns.dropWhile isHardBreak) (ns'.dropWhile isHardBreak) := by
  induction h with
  | nil => exact .nil
  | cons h hrest ih =>
    rw [List.dropWhile_cons, List.dropWhile_cons, h.isHardBreak]
    split
    · exact ih
    · exact .cons h hrest

theorem returned_normalize (h : List.Forall₂ Returned ns ns') :
    List.Forall₂ Returned (normalize ns) (normalize ns') := by
  have htidy := returned_tidyTexts (returned_mergeTexts h) true
  have hfilter := List.rel_filter (p := fun n : Inline => !n.isEmptyText)
    (q := fun n : Inline => !n.isEmptyText) (fun n n' h => by simp [Returned.isEmptyText h]) htidy
  have hfront := returned_dropWhile hfilter
  have hback := returned_dropWhile (List.rel_reverse hfront)
  exact List.rel_reverse hback

end Inline

/-! ## Content in the making -/

/-- Content in the making that differs in places and line breaks alone. -/
structure Fragments.Returned (f f' : Fragments) : Prop where
  nodes : List.Forall₂ Inline.Returned f.nodes f'.nodes
  pending? : Option.Rel (fun t t' : OpenText => List.Forall₂ Text.Returned t.pieces t'.pieces)
    f.pending? f'.pending?

theorem Text.returned_flatten {ts ts' : List Text} (h : List.Forall₂ Text.Returned ts ts') :
    Text.Returned ts.flatten ts'.flatten := by
  induction h with
  | nil => exact .nil
  | cons h _ ih => exact h.append ih

namespace Fragments.Returned

variable {f f' g g' : Fragments} {n n' : Inline} {ns ns' : List Inline} {t t' : Text}

theorem empty : Returned {} {} := ⟨.nil, .none⟩

theorem pushText (h : f.Returned f') (ht : t.Returned t') (a b a' b' : Nat) :
    (f.pushText a b t).Returned (f'.pushText a' b' t') := by
  have hpending := h.pending?
  refine ⟨h.nodes, ?_⟩
  simp only [Fragments.pushText]
  generalize f.pending? = x, f'.pending? = x' at hpending
  cases hpending with
  | none => exact .some (.cons ht .nil)
  | some hp => exact .some (.cons ht hp)

theorem flush (h : f.Returned f') : f.flush.Returned f'.flush := by
  have hpending := h.pending?
  unfold Fragments.flush
  generalize f.pending? = x, f'.pending? = x' at hpending
  cases hpending with
  | none => exact h
  | some hp => exact ⟨.cons (.text _ _ (Text.returned_flatten (List.rel_reverse hp))) h.nodes, .none⟩

theorem push (h : f.Returned f') (hn : n.Returned n') : (f.push n).Returned (f'.push n') :=
  ⟨.cons hn h.flush.nodes, .none⟩

theorem foldl_push (h : f.Returned f') (hns : List.Forall₂ Inline.Returned ns ns') :
    (ns.foldl Fragments.push f).Returned (ns'.foldl Fragments.push f') := by
  induction hns generalizing f f' with
  | nil => exact h
  | cons hn _ ih => exact ih (h.push hn)

theorem pushAll (h : f.Returned f') (hns : List.Forall₂ Inline.Returned ns ns') :
    (f.pushAll ns).Returned (f'.pushAll ns') := by
  induction hns generalizing f f' with
  | nil => exact h
  | @cons n n' ns ns' hn hrest ih =>
    obtain ⟨i, i', t, t', rfl, rfl, ht⟩ | ⟨hother, hother'⟩ := hn.cases_text
    · exact ih (h.pushText ht _ _ _ _)
    · have hpush : ∀ {n : Inline} {f : Fragments} {ns : List Inline}, n.isText = false →
          f.pushAll (n :: ns) = (f.push n).pushAll ns := by
        intro n f ns hn
        cases n <;> first | rfl | cases hn
      rw [hpush hother, hpush hother']
      exact ih (h.push hn)

theorem toList (h : f.Returned f') : List.Forall₂ Inline.Returned f.toList f'.toList :=
  List.rel_reverse h.flush.nodes

theorem finish (h : f.Returned f') : List.Forall₂ Inline.Returned f.finish f'.finish :=
  Inline.returned_normalize h.toList

theorem leadingSpace (h : f.Returned f') : f'.leadingSpace = f.leadingSpace := by
  have hlist := h.toList
  unfold Fragments.leadingSpace
  generalize f.toList = ns, f'.toList = ns' at hlist
  cases hlist with
  | nil => rfl
  | cons hn _ =>
    cases hn with
    | text i i' ht => exact ht.head?_any (by decide) (by decide)
    | _ => rfl

theorem trailingSpace (h : f.Returned f') : f'.trailingSpace = f.trailingSpace := by
  have hnodes := h.flush.nodes
  unfold Fragments.trailingSpace
  generalize f.flush.nodes = ns, f'.flush.nodes = ns' at hnodes
  cases hnodes with
  | nil => rfl
  | cons hn _ =>
    cases hn with
    | text i i' ht => exact congrArg (Option.any CodeUnit.isInlineSpace) ht.getLast?
    | _ => rfl

end Fragments.Returned

namespace Parse

variable {f f' o o' : Fragments}

/-- A link shows its destination where it has no text of its own. -/
theorem returned_link {url url' : Text} {cs cs' : List Inline} (hurl : url.Returned url')
    (hcs : List.Forall₂ Inline.Returned cs cs') (i i' : NodeInfo) :
    (Inline.link i url (if cs.isEmpty then [.text i url] else cs)).Returned
      (.link i' url' (if cs'.isEmpty then [.text i' url'] else cs')) := by
  cases hcs with
  | nil => exact .link i i' hurl (.cons (.text i i' hurl) .nil)
  | cons hn hrest => exact .link i i' hurl (.cons hn hrest)

theorem isEmpty_of_returned {ns ns' : List Inline} (h : List.Forall₂ Inline.Returned ns ns') :
    ns'.isEmpty = ns.isEmpty := by
  cases h <;> rfl

theorem returned_closeArgument {p p' : Purpose} (hp : Purpose.Alike Text.Returned p p')
    (hf : f.Returned f') (ho : o.Returned o') (stop stop' : Nat) :
    (State.closeArgument p f stop o).Returned (State.closeArgument p' f' stop' o') := by
  have hchildren := hf.finish
  cases hp with
  | spanning => exact ho.pushAll hchildren
  | linkText command command' hurl => exact ho.push (returned_link hurl hchildren _ _)
  | styled command command' style =>
    have hempty := isEmpty_of_returned hchildren
    -- Space that goes outside is one space in both.
    have hspaced : ∀ {g g' : Fragments} (b : Bool) (x x' : Nat), g.Returned g' →
        (if b then g.pushText x x [0x20] else g).Returned
          (if b then g'.pushText x' x' [0x20] else g') := by
      intro g g' b x x' hg
      split
      · exact hg.pushText (.of_forall (by decide)) _ _ _ _
      · exact hg
    simp only [State.closeArgument, hempty, hf.leadingSpace, hf.trailingSpace]
    have houter := hspaced (f.leadingSpace || (f.trailingSpace && f.finish.isEmpty))
      command.token.start command'.token.start ho
    split
    · exact houter
    · refine hspaced f.trailingSpace stop stop' ?_
      cases style with
      | strong => exact houter.push (.strong _ _ hchildren)
      | emphasis => exact houter.push (.emphasis _ _ hchildren)
      | code => exact houter.push (.code _ _ (Inline.Returned.plainTextOf hchildren))
      | plain => exact houter.pushAll hchildren

/-! ## Blocks -/

variable {s s' : State}

theorem returned_mathSpan {t t' : Text} (h : t.Returned t') (a b a' b' : Nat) :
    List.Forall₂ Inline.Returned (mathSpan a b t) (mathSpan a' b' t') := by
  simp only [mathSpan, h.trim.collapse (p := CodeUnit.isUnicodeSpace) (by decide) (by decide)]
  split
  · exact .nil
  · refine .cons (.math _ _ (.of_forall fun u hu => ?_)) .nil
    exact Text.isLineBreak_of_mem_collapse (by decide) (by decide) hu

theorem returned_labelled {label label' content content' : List Inline}
    (hlabel : List.Forall₂ Inline.Returned label label')
    (hcontent : List.Forall₂ Inline.Returned content content') :
    List.Forall₂ Inline.Returned (labelled label content) (labelled label' content') := by
  cases hlabel with
  | nil => exact hcontent
  | cons hn hrest =>
    obtain ⟨_, _, _, heq⟩ := exists_labelled_eq (List.cons_ne_nil _ _) content
    obtain ⟨_, _, _, heq'⟩ := exists_labelled_eq (List.cons_ne_nil _ _) content'
    rw [heq, heq', isEmpty_of_returned hcontent]
    refine .cons (.strong _ _ (.cons hn hrest)) ?_
    split
    · exact .nil
    · exact .cons (.text _ _ (.of_forall (by decide))) hcontent

theorem returned_listItem {label label' : List Inline} {bs bs' : List Block}
    (hlabel : List.Forall₂ Inline.Returned label label')
    (hbs : List.Forall₂ Block.Returned bs bs') (a b a' b' : Nat) :
    ListItem.Returned (listItem a b label bs) (listItem a' b' label' bs') := by
  have hnone := returned_labelled hlabel .nil
  cases hbs with
  | nil => exact .mk _ _ hnone .nil
  | cons hb hrest =>
    cases hb with
    | paragraph _ _ hcs => exact .mk _ _ (returned_labelled hlabel hcs) hrest
    | heading j j' level hcs => exact .mk _ _ hnone (.cons (.heading j j' level hcs) hrest)
    | quote j j' h => exact .mk _ _ hnone (.cons (.quote j j' h) hrest)
    | list j j' ordered h => exact .mk _ _ hnone (.cons (.list j j' ordered h) hrest)
    | code j j' h language => exact .mk _ _ hnone (.cons (.code j j' h language) hrest)
    | table j j' h => exact .mk _ _ hnone (.cons (.table j j' h) hrest)
    | math j j' h environment => exact .mk _ _ hnone (.cons (.math j j' h environment) hrest)

/-- The open item of a list comes to items that differ in places and line breaks alone. -/
theorem returned_finishItem {e e' : OpenEnvironment} {l l' : OpenList}
    (hblocks : List.Forall₂ Block.Returned e.blocks e'.blocks)
    (hitems : List.Forall₂ ListItem.Returned l.items l'.items)
    (hlabel : List.Forall₂ Inline.Returned l.item.label l'.item.label)
    (himplicit : l'.item.implicit = l.item.implicit) :
    List.Forall₂ ListItem.Returned (s.finishItem e l).2 (s'.finishItem e' l').2 := by
  have hempty : e'.blocks.isEmpty = e.blocks.isEmpty := by
    cases e
    cases e'
    cases hblocks <;> rfl
  have hitem := returned_listItem hlabel (List.rel_reverse hblocks)
  simp only [State.finishItem, himplicit, hempty]
  split
  · exact .cons (hitem _ _ _ _) hitems
  split
  · exact hitems
  · exact .cons ((hitem _ _ _ _).withInfo _ _) hitems

theorem returned_finishCell {t t' : OpenTable}
    (hcells : List.Forall₂ TableCell.Returned t.cells t'.cells) (hspan : t'.span = t.span)
    (hf : f.Returned f') :
    List.Forall₂ TableCell.Returned (s.finishCell t f).cells (s'.finishCell t' f').cells := by
  have hempty : ∀ n (i i' : NodeInfo), List.Forall₂ TableCell.Returned
      (List.replicate n ⟨i, []⟩) (List.replicate n ⟨i', []⟩) := by
    intro n i i'
    induction n with
    | zero => exact .nil
    | succ n ih => exact .cons .nil ih
  simp only [State.finishCell, hspan]
  exact List.rel_append (hempty _ _ _) (.cons hf.finish hcells)

/-- A row with content stays a row with content. -/
theorem any_of_returned {cells cells' : List TableCell}
    (h : List.Forall₂ TableCell.Returned cells cells') :
    cells'.any (!·.children.isEmpty) = cells.any (!·.children.isEmpty) := by
  induction h with
  | nil => rfl
  | cons h _ ih => rw [List.any_cons, List.any_cons, ih, isEmpty_of_returned h]

theorem returned_finishRow {t t' : OpenTable}
    (hrows : List.Forall₂ TableRow.Returned t.rows t'.rows)
    (hcells : List.Forall₂ TableCell.Returned t.cells t'.cells) :
    List.Forall₂ TableRow.Returned (s.finishRow t).rows (s'.finishRow t').rows := by
  have hreverse := List.rel_reverse hcells
  simp only [State.finishRow, any_of_returned hreverse]
  split
  · exact .cons hreverse hrows
  · exact hrows

theorem returned_paragraph {ns ns' : List Inline} (h : List.Forall₂ Inline.Returned ns ns')
    (i i' : NodeInfo) : List.Forall₂ Block.Returned (if ns.isEmpty then [] else [.paragraph i ns])
      (if ns'.isEmpty then [] else [.paragraph i' ns']) := by
  cases h with
  | nil => exact .nil
  | cons hn hrest => exact .cons (.paragraph i i' (.cons hn hrest)) .nil

theorem returned_displayMath {t t' : Text} (h : t.Returned t') (i i' : NodeInfo) :
    List.Forall₂ Block.Returned (if t = [] then [] else [.math i t none])
      (if t' = [] then [] else [.math i' t' none]) := by
  simp only [h.eq_nil_iff]
  split
  · exact .nil
  · exact .cons (.math i i' h none) .nil

theorem returned_code {t t' : Text} (h : t.Returned t') (i i' : NodeInfo) (name : Text) :
    List.Forall₂ Block.Returned
      [.code i (CodeBody.ofBody name t).text (CodeBody.ofBody name t).language]
      [.code i' (CodeBody.ofBody name t').text (CodeBody.ofBody name t').language] := by
  have hbody := CodeBody.returned_ofBody name h
  rw [hbody.language]
  exact .cons (.code i i' hbody.text _) .nil

/-! ## The likeness -/

/-- Reading a source without carriage returns, and reading it with one before every line feed. -/
def Likeness.returns (settings : Settings) (source : Text) : Likeness where
  ctx := .of settings source
  ctx' := .of settings source.withReturns
  thin := False
  counts := False
  exact := Text.Returned
  text := Text.Returned
  pushed := List.Forall₂ Inline.Returned
  inlines := List.Forall₂ Inline.Returned
  fragments := Fragments.Returned
  blocks := List.Forall₂ Block.Returned
  items := List.Forall₂ ListItem.Returned
  cells := List.Forall₂ TableCell.Returned
  rows := List.Forall₂ TableRow.Returned
  count := fun n n' => n' = n
  offset_eq := rfl
  exact_unbroken := .of_forall
  exact_append := .append
  text_of_exact := id
  text_append := .append
  text_trim := .trim
  pushed_append := fun h h' => List.rel_append h h'
  pushed_mathSpan := fun a b a' b' _ _ h => returned_mathSpan h a b a' b'
  pushed_hardBreak := fun _ _ _ _ => .cons (.hardBreak _ _) .nil
  pushed_code := fun _ _ _ _ _ _ h => .cons (.code _ _ h) .nil
  pushed_url := fun _ _ _ _ _ _ h => .cons (.link _ _ h (.cons (.text _ _ h) .nil)) .nil
  inlines_nil := .nil
  fragments_nil := .empty
  fragments_pushText := fun a b a' b' _ _ _ _ h ht => h.pushText ht a b a' b'
  fragments_foldl := .foldl_push
  fragments_close := fun stop stop' _ _ _ _ _ _ hp hf ho => returned_closeArgument hp hf ho stop stop'
  inlines_finish := fun h => h.finish
  blocks_nil := .nil
  blocks_append := fun h h' => List.rel_append h h'
  blocks_paragraph := fun _ _ _ _ _ _ h => returned_paragraph h _ _
  blocks_heading := fun _ _ _ _ _ level _ _ h => .cons (.heading _ _ level h) .nil
  blocks_quote := fun _ _ _ _ _ _ h => .cons (.quote _ _ (List.rel_reverse h)) .nil
  blocks_list := fun _ _ _ _ ordered _ _ h => .cons (.list _ _ ordered (List.rel_reverse h)) .nil
  blocks_code := fun _ _ _ _ name _ _ h => returned_code h _ _ name
  blocks_math := fun _ _ _ _ environment _ _ h => .cons (.math _ _ h environment) .nil
  blocks_displayMath := fun _ _ _ _ _ _ h => returned_displayMath h _ _
  blocks_table := fun _ _ _ _ _ _ h => .cons (.table _ _ (List.rel_reverse h)) .nil
  items_nil := .nil
  items_finish := fun _ _ _ _ _ _ hb hi hl himplicit => returned_finishItem hb hi hl himplicit
  cells_nil := .nil
  cells_finish := fun _ _ _ _ _ _ hc hs hf => returned_finishCell hc hs hf
  rows_nil := .nil
  rows_finish := fun _ _ _ _ hr hc => returned_finishRow hr hc
  count_refl := Eq.refl
  count_text := fun h _ => by rw [columnSpan, columnSpan, h.eq, Number.leadingInt?_withReturns]

end Parse

end LatexMarkdown
