import LatexMarkdown.Proofs.Comments.Tokens
import LatexMarkdown.Proofs.TableComments.Spaces
/-!
  Content made of a source with its comments, and without them.

  In a table a comment is passed where it is kept, but the line break behind it stays, and is read as a
  space; where comments are dropped both are gone.  So what is gathered with comments has spaces put in
  (`Fragments.Looser`), and the blocks of the two readings are the same but for these (`Block.Looser`).
  This makes reading with comments and without a likeness (`Parse.Likeness.spaces`).
-/
namespace LatexMarkdown

/-! ## Content in the making -/

namespace Inline

variable {n : Inline} {ns : List Inline}

theorem Separate.concat (h : Separate ns)
    (hlast : n.isText = true → ∀ m ∈ ns.getLast?, m.isText = false) : Separate (ns ++ [n]) := by
  induction ns with
  | nil => exact ⟨fun _ => by simp, trivial⟩
  | cons m rest ih =>
    cases rest with
    | nil =>
      refine ⟨fun hm k hk => ?_, fun _ => by simp, trivial⟩
      obtain rfl : n = k := by simpa using hk
      cases hn : n.isText with
      | false => rfl
      | true => rw [hlast hn m rfl] at hm; cases hm
    | cons k rest =>
      refine ⟨h.1, ih h.2 fun hn j hj => hlast hn j ?_⟩
      rwa [List.getLast?_cons_cons]

theorem Separate.last_of_concat (h : Separate (ns ++ [n])) (hn : n.isText = true) :
    ∀ m ∈ ns.getLast?, m.isText = false := by
  induction ns with
  | nil => simp
  | cons m rest ih =>
    cases rest with
    | nil =>
      intro k hk
      obtain rfl : m = k := by simpa using hk
      cases hm : m.isText with
      | false => rfl
      | true => rw [h.1 hm n rfl] at hn; cases hn
    | cons k rest =>
      rw [List.getLast?_cons_cons]
      exact ih h.2

/-- A text that comes behind another is merged with it. -/
theorem mergeTexts_concat {i j : NodeInfo} {s t : Text} (h : Separate (ns ++ [.text i s])) :
    mergeTexts (ns ++ [.text i s] ++ [.text j t]) = ns ++ [joinTexts i j s t] := by
  induction ns with
  | nil => rfl
  | cons n rest ih =>
    have hrest : mergeTexts (n :: rest ++ [.text i s] ++ [.text j t])
        = mergeInto n (rest ++ [joinTexts i j s t]) := congrArg (mergeInto n) (ih h.2)
    rw [hrest]
    cases hn : n.isText with
    | false => exact mergeInto_of_isText hn _
    | true =>
      have hnext := h.1 hn
      cases rest with
      | nil => exact absurd (hnext _ rfl) (by simp [isText])
      | cons m rest => exact mergeInto_cons_of_isText (hnext m rfl) n _

end Inline

namespace Fragments

/-- Texts that come next to each other are one, and the text that is open is the last one. -/
structure Neat (f : Fragments) : Prop where
  separate : Inline.Separate f.toList
  last : f.pending? = none → ∀ n ∈ f.toList.getLast?, n.isText = false

namespace Neat

variable {f : Fragments}

theorem empty : Neat {} := ⟨trivial, fun _ => by simp [toList, flush]⟩

theorem toList_pushText (h : f.Neat) (a b : Nat) (t : Text) :
    (f.pushText a b t).toList = Inline.mergeTexts (f.toList ++ [.text (.span a b) t]) := by
  have hsep := h.separate
  cases hp : f.pending? with
  | none =>
    rw [(hsep.concat fun _ => h.last hp).mergeTexts_eq, toList_eq, toList_eq, pushText, hp]
    simp [OpenText.toInline, NodeInfo.span]
  | some p =>
    have hlist : f.toList = f.nodes.reverse ++ [p.toInline] := by
      rw [toList_eq, hp]
      rfl
    rw [hlist] at hsep ⊢
    rw [OpenText.toInline, Inline.mergeTexts_concat hsep, toList_eq, pushText, hp]
    simp [OpenText.toInline, NodeInfo.span, Inline.joinTexts]

theorem pushText (h : f.Neat) (a b : Nat) (t : Text) : (f.pushText a b t).Neat where
  separate := by
    rw [h.toList_pushText]
    exact Inline.separate_mergeTexts _
  last hp := by cases hp

theorem push (h : f.Neat) {n : Inline} (hn : n.isText = false) : (f.push n).Neat where
  separate := by
    rw [toList_push]
    exact h.separate.concat fun ht => absurd ht (by simp [hn])
  last _ m hm := by
    rw [toList_push, List.getLast?_concat] at hm
    exact Option.some.inj hm ▸ hn

end Neat

theorem leadingSpace_iff {f : Fragments} : f.leadingSpace = true ↔
    ∃ i t, f.toList.head? = some (.text i t) ∧ t.startsInSpace = true := by
  unfold leadingSpace
  split
  · next i t h => simp [h, Text.startsInSpace]
  · next h =>
    constructor
    · intro h
      cases h
    · rintro ⟨i, t, htext, -⟩
      exact absurd htext (h i t)

theorem trailingSpace_iff {f : Fragments} : f.trailingSpace = true ↔
    ∃ i t, f.toList.getLast? = some (.text i t) ∧ t.endsInSpace = true := by
  rw [toList, List.getLast?_reverse]
  unfold trailingSpace
  split
  · next i t h => simp [h, Text.endsInSpace]
  · next h =>
    constructor
    · intro h
      cases h
    · rintro ⟨i, t, htext, -⟩
      exact absurd htext (h i t)

/-- What was gathered first is what was gathered second, with spaces and line breaks put in. -/
structure Looser (f f' : Fragments) : Prop where
  neat : f.Neat
  neat' : f'.Neat
  spaced : Inline.Spaced Inline.Looser f.toList f'.toList

namespace Looser

open Inline (Spaced)

variable {f f' : Fragments} {n n' : Inline} {ns ns' : List Inline} {t t' : Text}

theorem empty : Looser {} {} := ⟨.empty, .empty, .nil⟩

theorem pushText (h : f.Looser f') (ht : t.Looser t') (a b a' b' : Nat) :
    (f.pushText a b t).Looser (f'.pushText a' b' t') := by
  refine ⟨h.neat.pushText a b t, h.neat'.pushText a' b' t', ?_⟩
  rw [h.neat.toList_pushText, h.neat'.toList_pushText]
  exact (h.spaced.append (.cons (.text _ _ _ _ ht) .nil)).mergeTexts

/-- Space is put in. -/
theorem pushGap (h : f.Looser f') (hne : t ≠ []) (ht : t.Looser []) (a b : Nat) :
    (f.pushText a b t).Looser f' := by
  refine ⟨h.neat.pushText a b t, h.neat', ?_⟩
  rw [h.neat.toList_pushText, ← h.neat'.separate.mergeTexts_eq, ← List.append_nil f'.toList]
  exact (h.spaced.append (.gap _ hne ht .nil)).mergeTexts

theorem push (h : f.Looser f') (hn : n.Looser n') (htext : n.isText = false) :
    (f.push n).Looser (f'.push n') := by
  refine ⟨h.neat.push htext, h.neat'.push (hn.isText ▸ htext), ?_⟩
  rw [toList_push, toList_push]
  exact h.spaced.append (.cons hn .nil)

theorem foldl_push (h : f.Looser f') (hns : Spaced Inline.Looser ns ns')
    (htext : ∀ n ∈ ns, n.isText = false) :
    (ns.foldl Fragments.push f).Looser (ns'.foldl Fragments.push f') := by
  induction hns generalizing f f' with
  | nil => exact h
  | gap => exact absurd (htext _ List.mem_cons_self) (by simp [Inline.isText])
  | cons hn _ ih =>
    rw [List.forall_mem_cons] at htext
    exact ih (h.push hn htext.1) htext.2

theorem pushAll (h : f.Looser f') (hns : Spaced Inline.Looser ns ns') :
    (f.pushAll ns).Looser (f'.pushAll ns') := by
  -- A text goes on with the open text, and the other node comes behind it, on both sides alike.
  induction hns generalizing f f' with
  | nil => exact h
  | gap i hne ht _ ih => exact ih (h.pushGap hne ht _ _)
  | @cons n n' ns ns' hn _ ih =>
    obtain ⟨_, _, _, _, t, t', rfl, rfl, ht⟩ | ⟨hother, hother'⟩ := hn.cases_text
    · exact ih (h.pushText ht _ _ _ _)
    · have hpush : ∀ {n : Inline} {f : Fragments} {ns : List Inline}, n.isText = false →
          f.pushAll (n :: ns) = (f.push n).pushAll ns := by
        intro n f ns hn
        cases n <;> first | rfl | cases hn
      rw [hpush hother, hpush hother']
      exact ih (h.push hn hother)

theorem finish (h : f.Looser f') : Inline.LooserContent f.finish f'.finish :=
  ⟨h.spaced.normalize, h.spaced.normalize.eq_nil_iff (Inline.normal_normalize _)⟩

/-- Space at the front of the second content is there in the first one, too. -/
theorem leadingSpace (h : f.Looser f') (h' : f'.leadingSpace = true) : f.leadingSpace = true := by
  rw [leadingSpace_iff] at h' ⊢
  obtain ⟨i', t', hhead, hspace⟩ := h'
  obtain ⟨i, t, hfirst, ht⟩ := h.spaced.exists_text hhead fun n rest heq htext => by
    have hsep := h.neat.separate
    rw [heq] at hsep
    exact hsep.1 htext
  exact ⟨i, t, hfirst, ht.startsInSpace hspace⟩

theorem trailingSpace (h : f.Looser f') (h' : f'.trailingSpace = true) : f.trailingSpace = true := by
  rw [trailingSpace_iff] at h' ⊢
  obtain ⟨i', t', hlast, hspace⟩ := h'
  rw [← List.head?_reverse] at hlast
  obtain ⟨i, t, hfirst, ht⟩ := h.spaced.reverse.exists_text hlast fun n rest heq htext => by
    have hsep := h.neat.separate
    rw [← List.reverse_reverse f.toList, heq, List.reverse_cons] at hsep
    rw [← List.getLast?_reverse]
    exact hsep.last_of_concat htext
  exact ⟨i, t, by rwa [← List.head?_reverse], ht.endsInSpace hspace⟩

end Looser

end Fragments

/-! ## Trees -/

/-- A cell of the first table is the cell of the second one, with spaces and line breaks put in. -/
inductive TableCell.Looser : TableCell → TableCell → Prop
  | mk (a b a' b' : Nat) {cs cs' : List Inline} (h : Inline.LooserContent cs cs') :
      TableCell.Looser ⟨.span a b, cs⟩ ⟨.span a' b', cs'⟩

/-- A row of the first table is the row of the second one, with spaces and line breaks put in. -/
inductive TableRow.Looser : TableRow → TableRow → Prop
  | mk (a b a' b' : Nat) {cells cells' : List TableCell}
      (h : List.Forall₂ TableCell.Looser cells cells') :
      TableRow.Looser ⟨.span a b, cells⟩ ⟨.span a' b', cells'⟩

mutual

/-- The first block is the second one, with spaces and line breaks put into its inline content and its
mathematics. -/
inductive Block.Looser : Block → Block → Prop
  | paragraph (a b a' b' : Nat) {cs cs' : List Inline} (h : Inline.LooserContent cs cs') :
      Block.Looser (.paragraph (.span a b) cs) (.paragraph (.span a' b') cs')
  | heading (flags : NodeFlags) (a b a' b' : Nat) (level : Number) {cs cs' : List Inline}
      (h : Inline.LooserContent cs cs') :
      Block.Looser (.heading ⟨flags, a, b⟩ level cs) (.heading ⟨flags, a', b'⟩ level cs')
  | quote (a b a' b' : Nat) {bs bs' : List Block} (h : List.Forall₂ Block.Looser bs bs') :
      Block.Looser (.quote (.span a b) bs) (.quote (.span a' b') bs')
  | list (a b a' b' : Nat) (ordered : Bool) {items items' : List ListItem}
      (h : List.Forall₂ ListItem.Looser items items') :
      Block.Looser (.list (.span a b) ordered items) (.list (.span a' b') ordered items')
  | code (a b a' b' : Nat) (t : Text) (language : Option Text) :
      Block.Looser (.code (.span a b) t language) (.code (.span a' b') t language)
  | table (a b a' b' : Nat) {rows rows' : List TableRow}
      (h : List.Forall₂ TableRow.Looser rows rows') :
      Block.Looser (.table (.span a b) rows) (.table (.span a' b') rows')
  | math (a b a' b' : Nat) {t t' : Text} (h : t.Looser t') (environment : Option Text) :
      Block.Looser (.math (.span a b) t environment) (.math (.span a' b') t' environment)

/-- The first item is the second one, with spaces and line breaks put in. -/
inductive ListItem.Looser : ListItem → ListItem → Prop
  | mk (flags : NodeFlags) (a b a' b' : Nat) {cs cs' : List Inline} {bs bs' : List Block}
      (hcs : Inline.LooserContent cs cs') (hbs : List.Forall₂ Block.Looser bs bs') :
      ListItem.Looser ⟨⟨flags, a, b⟩, cs, bs⟩ ⟨⟨flags, a', b'⟩, cs', bs'⟩

end

namespace Inline

variable {ns ns' : List Inline}

theorem LooserContent.nil : LooserContent [] [] := ⟨.nil, Iff.rfl⟩

theorem LooserContent.isEmpty (h : LooserContent ns ns') : ns'.isEmpty = ns.isEmpty := by
  rw [Bool.eq_iff_iff, List.isEmpty_iff, List.isEmpty_iff, h.eq_nil_iff]

/-- Content that begins with the same node is empty on neither side. -/
theorem LooserContent.cons {n n' : Inline} (hn : n.Looser n') (h : Spaced Looser ns ns') :
    LooserContent (n :: ns) (n' :: ns') :=
  ⟨.cons hn h, by simp⟩

end Inline

namespace Parse

variable {f f' o o' : Fragments} {s s' : State}

/-- A link shows its destination where it has no text of its own. -/
theorem looser_link {url url' : Text} {cs cs' : List Inline} (hurl : url.Looser url')
    (hcs : Inline.LooserContent cs cs') (a b a' b' : Nat) :
    (Inline.link (.span a b) url (if cs.isEmpty then [.text (.span a b) url] else cs)).Looser
      (.link (.span a' b') url' (if cs'.isEmpty then [.text (.span a' b') url'] else cs')) := by
  rw [hcs.isEmpty]
  split
  · exact .link a b a' b' hurl (.cons (.text a b a' b' hurl) .nil)
  · exact .link a b a' b' hurl hcs.spaced

theorem looser_closeArgument {p p' : Purpose} (hp : Purpose.Alike Text.Looser p p')
    (hf : f.Looser f') (ho : o.Looser o') (stop stop' : Nat) :
    (State.closeArgument p f stop o).Looser (State.closeArgument p' f' stop' o') := by
  have hchildren := hf.finish
  cases hp with
  | spanning => exact ho.pushAll hchildren.spaced
  | linkText command command' hurl => exact ho.push (looser_link hurl hchildren _ _ _ _) rfl
  | styled command command' style =>
    -- Space that goes outside the second content goes outside the first one.
    have hspaced : ∀ {g g' : Fragments} (b b' : Bool) (x x' : Nat), g.Looser g' →
        (b' = true → b = true) → (if b then g.pushText x x [0x20] else g).Looser
          (if b' then g'.pushText x' x' [0x20] else g') := by
      intro g g' b b' x x' hg hb
      cases b with
      | true =>
        cases b' with
        | true => exact hg.pushText (.refl _) _ _ _ _
        | false => exact hg.pushGap (by simp) (.gap (by decide) .nil) _ _
      | false =>
        rw [Bool.eq_false_iff.mpr fun h => Bool.false_ne_true (hb h)]
        exact hg
    simp only [State.closeArgument, hchildren.isEmpty]
    have houter := hspaced (f.leadingSpace || (f.trailingSpace && f.finish.isEmpty))
      (f'.leadingSpace || (f'.trailingSpace && f.finish.isEmpty))
      command.token.start command'.token.start ho (by
        rw [Bool.or_eq_true, Bool.or_eq_true, Bool.and_eq_true, Bool.and_eq_true]
        exact Or.imp hf.leadingSpace (And.imp_left hf.trailingSpace))
    split
    · exact houter
    · refine hspaced _ _ stop stop' ?_ hf.trailingSpace
      cases style with
      | strong => exact houter.push (.strong _ _ _ _ hchildren.spaced) rfl
      | emphasis => exact houter.push (.emphasis _ _ _ _ hchildren.spaced) rfl
      | code => exact houter.push (.code _ _ _ _ (Inline.Looser.plainTextOf hchildren.spaced)) rfl
      | plain => exact houter.pushAll hchildren.spaced

/-! ## Blocks -/

/-- Nodes of inline content that are the same with spaces put in, and no texts. -/
def LooserNodes (ns ns' : List Inline) : Prop :=
  Inline.Spaced Inline.Looser ns ns' ∧ ∀ n ∈ ns, n.isText = false

theorem LooserNodes.single {n n' : Inline} (h : n.Looser n') (htext : n.isText = false) :
    LooserNodes [n] [n'] :=
  ⟨.cons h .nil, by simpa using htext⟩

theorem LooserNodes.append {ns ns' ms ms' : List Inline} (h : LooserNodes ns ns')
    (hm : LooserNodes ms ms') : LooserNodes (ns ++ ms) (ns' ++ ms') :=
  ⟨h.1.append hm.1, fun n hn => (List.mem_append.mp hn).elim (h.2 n) (hm.2 n)⟩

theorem looser_mathSpan {t t' : Text} (h : t.Looser t') (a b a' b' : Nat) :
    LooserNodes (mathSpan a b t) (mathSpan a' b' t') := by
  simp only [mathSpan, Text.collapse_eq_nil_iff, h.trim.eq_nil_iff_of_trim]
  split
  · exact ⟨.nil, by simp⟩
  · have htext := h.trim.collapseFrom (fun _ => CodeUnit.isUnicodeSpace_of_isGap) false
    exact .single (.math _ _ _ _ htext) rfl

theorem looser_labelled {label label' content content' : List Inline}
    (hlabel : Inline.LooserContent label label') (hcontent : Inline.LooserContent content content') :
    Inline.LooserContent (labelled label content) (labelled label' content') := by
  by_cases hne : label = []
  · rw [hne, hlabel.eq_nil_iff.mpr hne]
    exact hcontent
  · obtain ⟨_, _, _, heq⟩ := exists_labelled_eq hne content
    obtain ⟨_, _, _, heq'⟩ := exists_labelled_eq (fun h => hne (hlabel.eq_nil_iff.mp h)) content'
    rw [heq, heq', hcontent.isEmpty]
    refine .cons (.strong _ _ _ _ hlabel.spaced) ?_
    split
    · exact .nil
    · exact .cons (.text _ _ _ _ (.refl _)) hcontent.spaced

theorem looser_listItem {label label' : List Inline} {bs bs' : List Block}
    (hlabel : Inline.LooserContent label label') (hbs : List.Forall₂ Block.Looser bs bs')
    (a b a' b' : Nat) : ListItem.Looser (listItem a b label bs) (listItem a' b' label' bs') := by
  have hnone := looser_labelled hlabel .nil
  -- A paragraph that comes first is taken into the item; the first blocks are of one kind.
  cases hbs with
  | nil => exact .mk {} _ _ _ _ hnone .nil
  | cons hb hrest =>
    have hother := ListItem.Looser.mk {} a b a' b' hnone (.cons hb hrest)
    cases hb with
    | paragraph _ _ _ _ hcs => exact .mk {} _ _ _ _ (looser_labelled hlabel hcs) hrest
    | heading | quote | list | code | table | math => exact hother

theorem looser_finishItem {e e' : OpenEnvironment} {l l' : OpenList}
    (hblocks : List.Forall₂ Block.Looser e.blocks e'.blocks)
    (hitems : List.Forall₂ ListItem.Looser l.items l'.items)
    (hlabel : Inline.LooserContent l.item.label l'.item.label)
    (himplicit : l'.item.implicit = l.item.implicit) :
    List.Forall₂ ListItem.Looser (s.finishItem e l).2 (s'.finishItem e' l').2 := by
  have hempty : e'.blocks.isEmpty = e.blocks.isEmpty := by
    cases e
    cases e'
    cases hblocks <;> rfl
  have hitem := looser_listItem hlabel (List.rel_reverse hblocks)
  have hmarked : ∀ {item item' : ListItem} (flags : NodeFlags), item.Looser item' →
      ListItem.Looser { item with info := { item.info with flags } }
        { item' with info := { item'.info with flags } } := by
    rintro _ _ flags ⟨_, _, _, _, _, hcs, hbs⟩
    exact .mk flags _ _ _ _ hcs hbs
  simp only [State.finishItem, himplicit, hempty]
  split
  · exact .cons (hitem _ _ _ _) hitems
  split
  · exact hitems
  · exact .cons (hmarked _ (hitem _ _ _ _)) hitems

theorem looser_finishCell {t t' : OpenTable}
    (hcells : List.Forall₂ TableCell.Looser t.cells t'.cells) (hspan : t'.span = t.span)
    (hf : f.Looser f') :
    List.Forall₂ TableCell.Looser (s.finishCell t f).cells (s'.finishCell t' f').cells := by
  have hempty : ∀ n (a b a' b' : Nat), List.Forall₂ TableCell.Looser
      (List.replicate n ⟨.span a b, []⟩) (List.replicate n ⟨.span a' b', []⟩) := by
    intro n a b a' b'
    induction n with
    | zero => exact .nil
    | succ n ih => exact .cons (.mk _ _ _ _ .nil) ih
  simp only [State.finishCell, hspan]
  exact List.rel_append (hempty _ _ _ _ _) (.cons (.mk _ _ _ _ hf.finish) hcells)

/-- A row with content is a row with content without the spaces that were put in. -/
theorem any_of_looser {cells cells' : List TableCell}
    (h : List.Forall₂ TableCell.Looser cells cells') :
    cells'.any (!·.children.isEmpty) = cells.any (!·.children.isEmpty) := by
  induction h with
  | nil => rfl
  | cons h _ ih =>
    obtain ⟨_, _, _, _, h⟩ := h
    rw [List.any_cons, List.any_cons, ih, h.isEmpty]

theorem looser_finishRow {t t' : OpenTable} (hrows : List.Forall₂ TableRow.Looser t.rows t'.rows)
    (hcells : List.Forall₂ TableCell.Looser t.cells t'.cells) :
    List.Forall₂ TableRow.Looser (s.finishRow t).rows (s'.finishRow t').rows := by
  have hreverse := List.rel_reverse hcells
  simp only [State.finishRow, any_of_looser hreverse]
  split
  · exact .cons (.mk _ _ _ _ hreverse) hrows
  · exact hrows

theorem looser_paragraph {ns ns' : List Inline} (h : Inline.LooserContent ns ns') (a b a' b' : Nat) :
    List.Forall₂ Block.Looser (if ns.isEmpty then [] else [.paragraph (.span a b) ns])
      (if ns'.isEmpty then [] else [.paragraph (.span a' b') ns']) := by
  rw [h.isEmpty]
  split
  · exact .nil
  · exact .cons (.paragraph a b a' b' h) .nil

theorem looser_displayMath {t t' : Text} (h : t.trim.Looser t') (a b a' b' : Nat) :
    List.Forall₂ Block.Looser (if t.trim = [] then [] else [.math (.span a b) t.trim none])
      (if t' = [] then [] else [.math (.span a' b') t' none]) := by
  simp only [h.eq_nil_iff_of_trim]
  split
  · exact .nil
  · exact .cons (.math a b a' b' h none) .nil

/-! ## The likeness -/

/-- Reading a source with its comments, and reading it without them: in a table the first reading has
the spaces of line breaks that the second one lacks. -/
def Likeness.spaces (settings : Settings) (source : Text) : Likeness where
  ctx := .of { settings with keepComments := true } source
  ctx' := .of { settings with keepComments := false } source
  thin := True
  counts := True
  exact := fun t t' => t' = t
  text := Text.Looser
  pushed := LooserNodes
  inlines := Inline.LooserContent
  fragments := Fragments.Looser
  blocks := List.Forall₂ Block.Looser
  items := List.Forall₂ ListItem.Looser
  cells := List.Forall₂ TableCell.Looser
  rows := List.Forall₂ TableRow.Looser
  count := fun n n' => n' = n
  offset_eq := offset_keepComments settings source
  exact_unbroken := fun _ => rfl
  exact_append := fun h h' => by rw [h, h']
  text_of_exact := fun h => h ▸ .refl _
  text_append := .append
  text_trim := .trim
  pushed_append := .append
  pushed_mathSpan := fun a b a' b' _ _ h => looser_mathSpan h a b a' b'
  pushed_hardBreak := fun a b a' b' => .single (.hardBreak a b a' b') rfl
  pushed_code := fun a b a' b' _ _ h => .single (.code a b a' b' (h ▸ .refl _)) rfl
  pushed_url := fun a b a' b' _ _ h =>
    .single (.link a b a' b' h (.cons (.text a b a' b' h) .nil)) rfl
  inlines_nil := .nil
  fragments_nil := .empty
  fragments_pushText := fun a b a' b' _ _ _ _ h ht => h.pushText (ht ▸ .refl _) a b a' b'
  fragments_foldl := fun h hns => h.foldl_push hns.1 hns.2
  fragments_close := fun stop stop' _ _ _ _ _ _ hp hf ho => looser_closeArgument hp hf ho stop stop'
  inlines_finish := fun h => h.finish
  blocks_nil := .nil
  blocks_append := fun h h' => List.rel_append h h'
  blocks_paragraph := fun a b a' b' _ _ h => looser_paragraph h a b a' b'
  blocks_heading := fun flags a b a' b' level _ _ h => .cons (.heading flags a b a' b' level h) .nil
  blocks_quote := fun a b a' b' _ _ h => .cons (.quote a b a' b' (List.rel_reverse h)) .nil
  blocks_list := fun a b a' b' ordered _ _ h =>
    .cons (.list a b a' b' ordered (List.rel_reverse h)) .nil
  blocks_code := fun a b a' b' _ _ _ h => h ▸ .cons (.code a b a' b' _ _) .nil
  blocks_math := fun a b a' b' environment _ _ h => .cons (.math a b a' b' h environment) .nil
  blocks_displayMath := fun a b a' b' _ _ h => looser_displayMath h a b a' b'
  blocks_table := fun a b a' b' _ _ h => .cons (.table a b a' b' (List.rel_reverse h)) .nil
  items_nil := .nil
  items_finish := fun _ _ _ _ _ _ hb hi hl himplicit => looser_finishItem hb hi hl himplicit
  cells_nil := .nil
  cells_finish := fun _ _ _ _ _ _ hc hs hf => looser_finishCell hc hs hf
  rows_nil := .nil
  rows_finish := fun _ _ _ _ hr hc => looser_finishRow hr hc
  count_refl := Eq.refl
  count_text := fun _ hexact => by rw [hexact ⟨trivial, trivial⟩]

end Parse

end LatexMarkdown
