import LatexMarkdown.Proofs.Spacing
import LatexMarkdown.Proofs.Steps.Change
/-!
  What a state keeps, piece by piece.

  A state keeps finished blocks, open lists and tables, what was gathered in runs, and arguments that
  interrupt a run.  `Pieces` says what is asked of each of these, and `Pieces.Closed` that reading
  makes new ones as it is asked for from old ones that are as it is asked for.  Then every change
  keeps it (`Keeping.change`), so a property of this kind is only proved where a piece is made.

  For a property of inline nodes, `forall_closeArgument` and `forall_labelled` say what a finished
  argument and the label of an item have to give.
-/
namespace LatexMarkdown.Parse

/-! ## Arguments -/

/-- What a finished argument adds: a node around its content, or its content in its place.  A property
of the nodes that were gathered is kept if those nodes have it, and texts do. -/
theorem forall_closeArgument {q : Inline → Prop} {purpose : Purpose} {argument outer : Fragments}
    (htext : ∀ i, i.flags = {} → ∀ t, q (.text i t)) (houter : ∀ n ∈ outer.toList, q n)
    (hcontent : ∀ n ∈ argument.finish, q n)
    (hbare : ∀ m url i, purpose = .linkText m url → i.flags = {} → q (.link i url [.text i url]))
    (hlink : ∀ m url i, purpose = .linkText m url → argument.finish ≠ [] → i.flags = {} →
      q (.link i url argument.finish))
    (hstyled : argument.finish ≠ [] → ∀ i, i.flags = {} → q (.strong i argument.finish) ∧
      q (.emphasis i argument.finish) ∧ q (.code i (Inline.plainTextOf argument.finish)))
    (stop : Nat) : ∀ n ∈ (State.closeArgument purpose argument stop outer).toList, q n := by
  cases purpose with
  | spanning => exact Fragments.forall_pushAll htext houter hcontent
  | linkText command url =>
    simp only [State.closeArgument]
    split
    · exact Fragments.forall_push houter (hbare _ _ _ rfl rfl)
    · next hne => exact Fragments.forall_push houter (hlink _ _ _ rfl (by simpa using hne) rfl)
  | styled command style =>
    -- Space at an edge of the argument goes outside, as text.
    have hspace : ∀ (b : Bool) (g : Fragments) (p : Nat), (∀ n ∈ g.toList, q n) →
        ∀ n ∈ (if b then g.pushText p p [0x20] else g).toList, q n := by
      intro b g p hg
      split
      · exact Fragments.forall_pushText htext hg p p _
      · exact hg
    simp only [State.closeArgument]
    split
    · exact hspace _ _ _ houter
    · next hne =>
      obtain ⟨hstrong, hemphasis, hcode⟩ := hstyled (by simpa using hne)
        (.span command.token.start stop) rfl
      apply hspace
      cases style with
      | strong => exact Fragments.forall_push (hspace _ _ _ houter) hstrong
      | emphasis => exact Fragments.forall_push (hspace _ _ _ houter) hemphasis
      | code => exact Fragments.forall_push (hspace _ _ _ houter) hcode
      | plain => exact Fragments.forall_pushAll htext (hspace _ _ _ houter) hcontent

/-! ## List items -/

/-- A label goes in front of the content as strong text, with a space between the two. -/
theorem forall_labelled {q : Inline → Prop} {label content : List Inline}
    (htext : ∀ i, i.flags = {} → ∀ t, q (.text i t))
    (hstrong : label ≠ [] → ∀ i, i.flags = {} → q (.strong i label))
    (hcontent : ∀ n ∈ content, q n) : ∀ n ∈ labelled label content, q n := by
  unfold labelled
  split
  · next first last hfirst hlast =>
    have hlabel : label ≠ [] := List.ne_nil_of_mem (List.mem_of_mem_head? hfirst)
    intro n hn
    simp only at hn
    split at hn
    · rw [List.mem_singleton.mp hn]
      exact hstrong hlabel _ rfl
    · rcases List.mem_cons.mp hn with rfl | hn
      · exact hstrong hlabel _ rfl
      rcases List.mem_cons.mp hn with rfl | hn
      · exact htext _ rfl _
      · exact hcontent n hn
  · exact hcontent

/-- A list item has its label, the content of its first block if that is a paragraph, and the other
blocks. -/
theorem exists_listItem_eq (label : List Inline) (blocks : List Block) (start stop : Nat) :
    ∃ content rest, listItem start stop label blocks
        = { info := .span start stop, children := labelled label content, blocks := rest } ∧
      (content = [] ∨ ∃ i, .paragraph i content ∈ blocks) ∧ rest ⊆ blocks := by
  cases blocks with
  | nil => exact ⟨[], [], rfl, .inl rfl, List.Subset.refl _⟩
  | cons b rest =>
    cases b with
    | paragraph i cs =>
      exact ⟨cs, rest, rfl, .inr ⟨i, List.mem_cons_self⟩, List.subset_cons_self _ _⟩
    | _ => exact ⟨[], _, rfl, .inl rfl, List.Subset.refl _⟩

/-! ## Pieces -/

/-- What is asked of the pieces of a state. -/
structure Pieces where
  cursor : Cursor → Prop
  block : Block → Prop
  gathered : Fragments → Prop
  list : OpenList → Prop
  table : OpenTable → Prop
  argument : OpenArgument → Prop

/-- Pieces are made as it is asked for. -/
structure Pieces.Closed (p : Pieces) (ctx : Context) : Prop where
  reaches : ∀ {c d}, p.cursor c → c.Reaches d → p.cursor d
  leaf : ∀ {c d b}, p.cursor c → Leaf ctx c d b → p.block b
  empty : p.gathered {}
  pushText : ∀ {f}, p.gathered f → ∀ start stop t, p.gathered (f.pushText start stop t)
  pushAll : ∀ {f c d ns}, p.gathered f → p.cursor c → Reads ctx c d ns → p.gathered (f.pushAll ns)
  paragraph : ∀ {f}, p.gathered f → f.finish ≠ [] →
    ∀ start stop, p.block (.paragraph (.span start stop) f.finish)
  heading : ∀ {f}, p.gathered f →
    ∀ i level, i.flags.synthetic = false → p.block (.heading i level f.finish)
  quote : ∀ {blocks : List Block}, (∀ b ∈ blocks, p.block b) →
    ∀ start stop, p.block (.quote (.span start stop) blocks.reverse)
  /-- A list begins with neither items nor a label. -/
  newList : ∀ {l}, l.items = [] → l.item.label = [] → p.list l
  label : ∀ {l f}, p.list l → p.gathered f →
    p.list { l with item := { l.item with label := f.finish } }
  nextItem : ∀ {l} {e : OpenEnvironment}, p.list l → (∀ b ∈ e.blocks, p.block b) →
    ∀ (s : State) start, p.list { l with
      items := (s.finishItem e l).2
      item := { start, implicit := false } }
  closeList : ∀ {l} {e : OpenEnvironment}, p.list l → (∀ b ∈ e.blocks, p.block b) →
    ∀ (s : State) start stop,
      p.block (.list (.span start stop) l.ordered (s.finishItem e l).2.reverse)
  newTable : ∀ {t}, t.rows = [] → t.cells = [] → p.table t
  /-- Rows and cells that are finished are all that counts. -/
  sameTable : ∀ {t t'}, p.table t → t'.rows = t.rows → t'.cells = t.cells → p.table t'
  cell : ∀ {t f}, p.table t → p.gathered f → ∀ s : State, p.table (s.finishCell t f)
  row : ∀ {t}, p.table t → ∀ s : State, p.table { s.finishRow t with cells := [] }
  closeTable : ∀ {t}, p.table t → t.cells = [] →
    ∀ start stop, p.block (.table (.span start stop) t.rows.reverse)
  argument : ∀ {c run}, p.cursor c → p.gathered run.fragments → ∀ purpose opener,
    (∀ m url, purpose = .linkText m url → c.current.isCommand "href" = true ∧
      ∃ flaw t d, readGroup ctx.source c.marker flaw c.advance = .ok (t, d) ∧ url = t.trim) →
    p.argument { purpose, opener, outer := run }
  closeArgument : ∀ {a f}, p.argument a → p.gathered f →
    ∀ stop, p.gathered (State.closeArgument a.purpose f stop a.outer.fragments)

/-- The pieces of an open environment. -/
structure OpenEnvironment.Keeps (p : Pieces) (e : OpenEnvironment) : Prop where
  blocks : ∀ b ∈ e.blocks, p.block b
  list : ∀ l, e.role = .list l → p.list l

/-- The pieces of inline content that is open. -/
structure OpenInline.Keeps (p : Pieces) (i : OpenInline) : Prop where
  table : ∀ table, i.line = .cell table → p.table table
  gathered : p.gathered i.run.fragments
  arguments : ∀ a ∈ i.arguments, p.argument a

/-- All pieces of a state are as it is asked for. -/
structure Keeping (p : Pieces) (s : State) : Prop where
  cursor : p.cursor s.cursor
  blocks : ∀ b ∈ s.blocks, p.block b
  environments : ∀ e ∈ s.environments, e.Keeps p
  inline : ∀ i ∈ s.inline?, i.Keeps p

variable {p : Pieces} {ctx : Context} {s t : State} {i : OpenInline} {c : Cursor}

namespace Keeping

theorem initial {settings : Settings} {source : Text}
    (h : p.cursor (source.cursor settings.keepComments)) : Keeping p (.initial settings source) :=
  ⟨h, by simp [State.initial], by simp [State.initial], by simp [State.initial]⟩

/-! ## Moving on -/

/-- The cursor moves on, and other inline content is open. -/
theorem next_inline (h : Keeping p s) (hc : p.cursor c) (hi : i.Keeps p) :
    Keeping p { s with cursor := c, inline? := some i } :=
  ⟨hc, h.blocks, h.environments, fun _ hj => Option.some.inj hj ▸ hi⟩

/-- The cursor moves on, and a line is begun. -/
theorem begin_inline (hclosed : p.Closed ctx) (h : Keeping p s) (hc : p.cursor c) {line : Line}
    (hl : ∀ table, line = .cell table → p.table table) :
    Keeping p { s with cursor := c, inline? := some { line } } :=
  h.next_inline hc ⟨hl, hclosed.empty, by simp⟩

/-- The cursor moves on between blocks, in other environments. -/
theorem next_none (h : Keeping p s) (hc : p.cursor t.cursor) (hb : t.blocks = s.blocks)
    (he : ∀ e ∈ t.environments, e.Keeps p) (hi : t.inline? = none) : Keeping p t :=
  ⟨hc, hb ▸ h.blocks, he, by simp [hi]⟩

theorem warn (h : Keeping p s) (cause : Degradation) (start stop : Nat) :
    Keeping p (s.warn cause start stop) :=
  ⟨h.cursor, h.blocks, h.environments, h.inline⟩

theorem addBlocks (h : Keeping p s) {blocks : List Block} (hb : ∀ b ∈ blocks, p.block b) :
    Keeping p (s.addBlocks blocks) := by
  unfold State.addBlocks
  split
  · refine ⟨h.cursor, fun b hmem => ?_, h.environments, h.inline⟩
    exact (List.mem_append.mp hmem).elim (hb b) (h.blocks b)
  · next e outer heq =>
    have hopen := h.environments
    -- Inside an environment the blocks are the innermost one's.
    rw [heq] at hopen
    have he := hopen e List.mem_cons_self
    refine ⟨h.cursor, h.blocks, fun e' he' => ?_, h.inline⟩
    rcases List.mem_cons.mp he' with rfl | he'
    · exact ⟨fun b hmem => (List.mem_append.mp hmem).elim (hb b) (he.blocks b), he.list⟩
    · exact hopen e' (List.mem_cons_of_mem _ he')

/-- A block is added behind what was read. -/
theorem addBlock (h : Keeping p s) (hc : p.cursor t.cursor) (hblocks : t.blocks = s.blocks)
    (he : t.environments = s.environments) (hi : t.inline? = none) {b : Block} (hb : p.block b) :
    Keeping p (t.addBlocks [b]) := by
  refine (h.next_none hc hblocks (he ▸ h.environments) hi).addBlocks fun b' hmem => ?_
  exact List.mem_singleton.mp hmem ▸ hb

/-! ## Closing -/

theorem closeParagraph (hclosed : p.Closed ctx) (h : Keeping p s) (hi : s.inline? = some i)
    (start : Nat) : Keeping p (s.closeParagraph start i.run.fragments) := by
  simp only [State.closeParagraph]
  split
  · exact h.next_none h.cursor rfl h.environments rfl
  · next hne =>
    exact h.addBlock (t := { s with inline? := none }) h.cursor rfl rfl rfl
      (hclosed.paragraph (h.inline i hi).gathered (by simpa using hne) _ _)

theorem closeHeading (hclosed : p.Closed ctx) (h : Keeping p s) (hi : s.inline? = some i)
    (command : Marker) (level : Nat) :
    Keeping p (s.closeHeading ctx command level i.run.fragments) := by
  have hadded : ∀ (info : NodeInfo) (level : Number), info.flags.synthetic = false →
      Keeping p (({ s with cursor := s.cursor.advance, inline? := none } : State).addBlocks
        [.heading info level i.run.fragments.finish]) := by
    intro info level hinfo
    exact h.addBlock (t := { s with cursor := s.cursor.advance, inline? := none })
      (hclosed.reaches h.cursor (.advance _)) rfl rfl rfl
      (hclosed.heading (h.inline i hi).gathered info level hinfo)
  simp only [State.closeHeading]
  split
  · exact (hadded _ _ rfl).warn _ _ _
  · exact hadded _ _ rfl

/-- The innermost environment takes another role, and keeps some of its blocks. -/
theorem withRole {e : OpenEnvironment} {outer : List OpenEnvironment} {blocks : List Block}
    {role : Role} (h : Keeping p s) (he : s.environments = e :: outer)
    (hb : ∀ b ∈ blocks, b ∈ e.blocks) (hr : ∀ l, role = .list l → p.list l) :
    ∀ e' ∈ { e with role, blocks } :: outer, OpenEnvironment.Keeps p e' := by
  have hopen := h.environments
  rw [he] at hopen
  intro e' he'
  rcases List.mem_cons.mp he' with rfl | he'
  · exact ⟨fun b hmem => (hopen e List.mem_cons_self).blocks b (hb b hmem), hr⟩
  · exact hopen e' (List.mem_cons_of_mem _ he')

theorem closeLabel (hclosed : p.Closed ctx) (h : Keeping p s) (hi : s.inline? = some i) :
    Keeping p (s.closeLabel i.run.fragments) := by
  have hadvance : p.cursor s.cursor.advance := hclosed.reaches h.cursor (.advance _)
  simp only [State.closeLabel]
  split
  · exact h.next_none hadvance rfl h.environments rfl
  · next e outer heq =>
    have he : s.environments = e :: outer := heq
    refine h.next_none hadvance rfl (h.withRole he (fun _ => id) fun l hl => ?_) rfl
    cases hrole : e.role with
    | list l' =>
      rw [hrole] at hl
      have hlist := (h.environments e (he ▸ List.mem_cons_self)).list l' hrole
      cases hl
      exact hclosed.label hlist (h.inline i hi).gathered
    | _ =>
      rw [hrole] at hl
      cases hl

theorem beginItem (hclosed : p.Closed ctx) {e : OpenEnvironment} {outer : List OpenEnvironment}
    {l : OpenList} (h : Keeping p s) (hi : s.inline? = none) (he : s.environments = e :: outer)
    (hl : e.role = .list l) (start : Nat) :
    Keeping p { (s.finishItem e l).1 with
      cursor := s.cursor.advance
      environments := { e with
        role := .list { l with
          items := (s.finishItem e l).2
          item := { start, implicit := false } }
        blocks := [] } :: outer } := by
  have hopen := h.environments e (he ▸ List.mem_cons_self)
  obtain ⟨ds, heq, -⟩ := s.exists_finishItem_eq e l
  rw [heq]
  refine h.next_none (hclosed.reaches h.cursor (.advance _)) rfl
    (h.withRole he (by simp) fun l' hl' => ?_) hi
  cases hl'
  exact hclosed.nextItem (hopen.list l hl) hopen.blocks s start

/-- The innermost environment becomes a block, or leaves its blocks in its place. -/
theorem closeEnvironment (hclosed : p.Closed ctx) {e : OpenEnvironment}
    {outer : List OpenEnvironment} (h : Keeping p s) (hi : s.inline? = none)
    (he : s.environments = e :: outer) : Keeping p (s.closeEnvironment e outer) := by
  have hopen := h.environments
  rw [he] at hopen
  have hinner := hopen e List.mem_cons_self
  have houter : Keeping p { s with cursor := s.cursor.advance, environments := outer } :=
    h.next_none (hclosed.reaches h.cursor (.advance _)) rfl
      (fun e he => hopen e (List.mem_cons_of_mem _ he)) hi
  simp only [State.closeEnvironment]
  -- In place and float, quote, list: the blocks go on as they are, or into a block of their own.
  split
  · exact houter.addBlocks hinner.blocks
  · exact houter.addBlocks hinner.blocks
  · exact houter.addBlock houter.cursor rfl rfl hi (hclosed.quote hinner.blocks _ _)
  · next l hl =>
    obtain ⟨ds, heq, -⟩ := s.exists_finishItem_eq e l
    simp only [heq]
    exact houter.addBlock (t := { s with
        cursor := s.cursor.advance, environments := outer, diagnostics := ds ++ s.diagnostics })
      houter.cursor rfl rfl hi (hclosed.closeList (hinner.list l hl) hinner.blocks s _ _)

theorem closeTable (hclosed : p.Closed ctx) {table : OpenTable} {rows : List TableRow}
    (h : Keeping p s) (hi : s.inline? = some i) (hl : i.line = .cell table)
    (hr : rows = (s.finishRow (s.finishCell table i.run.fragments)).rows.reverse)
    (start stop : Nat) :
    Keeping p
      (({ s.warnRagged table.marker.text (TableRow.columnCount rows) rows with
          cursor := s.cursor.advance
          inline? := none } : State).addBlocks [.table (.span start stop) rows]) := by
  have hopen := h.inline i hi
  have hfinished := hclosed.row (hclosed.cell (hopen.table table hl) hopen.gathered s) s
  obtain ⟨ds, heq, -⟩ := s.exists_warnRagged_eq table.marker.text (TableRow.columnCount rows) rows
  rw [heq, hr]
  exact h.addBlock (t := { s with
      diagnostics := ds ++ s.diagnostics, cursor := s.cursor.advance, inline? := none })
    (hclosed.reaches h.cursor (.advance _)) rfl rfl rfl
    (hclosed.closeTable hfinished rfl start stop)

/-! ## Changes -/

/-- Every change keeps the pieces as it is asked for. -/
theorem change (hclosed : p.Closed ctx) (h : Keeping p s) (hchange : Change ctx s t) :
    Keeping p t := by
  have hreaches : ∀ {c}, s.cursor.Reaches c → p.cursor c := hclosed.reaches h.cursor
  have hadvance : s.cursor.Reaches s.cursor.advance := .advance _
  cases hchange with
  | skip hc => exact ⟨hreaches hc, h.blocks, h.environments, h.inline⟩
  | warn cause => exact h.warn cause _ _
  | @addLeaf c b hi hb =>
    exact h.addBlock (t := { s with cursor := c }) (hreaches (hadvance.trans hb.reaches_advance))
      rfl rfl hi (hclosed.leaf h.cursor hb)
  | beginEnvironment hi hk hc hr =>
    refine h.next_none (hreaches (hadvance.trans hc)) rfl (fun e he => ?_) hi
    rcases List.mem_cons.mp he with rfl | he
    · refine ⟨by simp, fun l hl => ?_⟩
      obtain ⟨hitems, hitem⟩ := hr l hl
      exact hclosed.newList hitems (by rw [hitem])
    · exact h.environments e he
  | closeEnvironment hi hk he => exact h.closeEnvironment hclosed hi he
  | beginItem hi hk he hl => exact h.beginItem hclosed hi he hl _
  | beginLabel hi he hl hb hc ho =>
    exact h.begin_inline hclosed (hreaches (hc.trans (.advance _))) (by simp)
  | beginHeading hi hk hc ho =>
    exact h.begin_inline hclosed (hreaches ((hadvance.trans hc).trans (.advance _))) (by simp)
  | beginParagraph hi => exact h.begin_inline hclosed h.cursor (by simp)
  | beginTable hi hk hc =>
    refine h.begin_inline hclosed (hreaches (hadvance.trans hc)) fun table htable => ?_
    cases htable
    exact hclosed.newTable rfl rfl
  | gather hi hk hr =>
    have hopen := h.inline _ hi
    exact h.next_inline (hreaches (hadvance.trans hr.reaches_advance))
      ⟨hopen.table, hclosed.pushAll hopen.gathered h.cursor hr, hopen.arguments⟩
  | openBrace kept hi hk =>
    have hopen := h.inline _ hi
    refine h.next_inline (hreaches hadvance) ⟨hopen.table, ?_, hopen.arguments⟩
    cases kept with
    | false => exact hopen.gathered
    | true => exact hclosed.pushText hopen.gathered _ _ _
  | @closeBrace i b braces hi hk hb =>
    have hopen := h.inline _ hi
    refine h.next_inline (hreaches hadvance) ⟨hopen.table, ?_, hopen.arguments⟩
    show p.gathered (if b.kept then _ else _)
    split
    · exact hclosed.pushText hopen.gathered _ _ _
    · exact hopen.gathered
  | openArgument hi hk hl hp hc ho hu =>
    have hopen := h.inline _ hi
    refine h.next_inline (hreaches ((hadvance.trans hc).trans (.advance _)))
      ⟨fun table htable => ?_, hclosed.empty, ?_⟩
    · rcases hl with rfl | ⟨table', span, hcell, rfl⟩
      · exact hopen.table table htable
      · -- A cell that spans columns is one of the same table.
        cases htable
        exact hclosed.sameTable (hopen.table table' hcell) rfl rfl
    · -- The run that was open is interrupted by the new argument.
      exact List.forall_mem_cons.mpr
        ⟨hclosed.argument h.cursor hopen.gathered _ _ hu, hopen.arguments⟩
  | closeArgument hi hk ha =>
    have hopen := h.inline _ hi
    have harguments := hopen.arguments
    rw [ha] at harguments
    exact h.next_inline (hreaches hadvance) ⟨hopen.table,
      hclosed.closeArgument (harguments _ List.mem_cons_self) hopen.gathered _,
      fun a hmem => harguments a (List.mem_cons_of_mem _ hmem)⟩
  | closeParagraph hi ha hl => exact h.closeParagraph hclosed hi _
  | closeHeading hi hk ha hl => exact h.closeHeading hclosed hi _ _
  | closeLabel hi hk ha hl => exact h.closeLabel hclosed hi
  | nextCell hi hk ha hl =>
    have hopen := h.inline _ hi
    refine h.begin_inline hclosed (hreaches hadvance) fun table htable => ?_
    cases htable
    exact hclosed.sameTable (hclosed.cell (hopen.table _ hl) hopen.gathered s) rfl rfl
  | nextRow hi hk ha hl hc =>
    have hopen := h.inline _ hi
    refine h.begin_inline hclosed (hreaches (hadvance.trans hc)) fun table htable => ?_
    cases htable
    exact hclosed.sameTable
      (hclosed.row (hclosed.cell (hopen.table _ hl) hopen.gathered s) s) rfl rfl
  | closeTable hi hk ha hl hr => exact h.closeTable hclosed hi hl hr _ _

end Keeping

end LatexMarkdown.Parse
