import LatexMarkdown.Proofs.Facing
import LatexMarkdown.Proofs.Outline.Tree
/-!
  Printing a tree and reading it back.

  Main statement: `Outline.parse_print`.

  A block is read from a state between blocks to one behind its source, with the block added to
  whatever is open (`State.past`).  That is all the enclosing construct has to know: blocks one
  after the other add up, a quote or list is closed at its end marker, and an item at the next one.
-/
namespace LatexMarkdown

namespace Outline

open Parse (State Context Surround Faces Meets OpenEnvironment OpenList Role
  nestingLimit)
open Parse.State (Leads)

variable {ctx : Context} {m : LineMark} {s : State} {rest : Text}

/-! ## Lines -/

/-- Between blocks a line feed is passed. -/
theorem leads_past_lineFeed {c : Cursor} (hi : s.inline? = none) (blocks : List Block)
    (h : Faces ctx m c (0x0A :: rest)) :
    Leads ctx (s.past c blocks) (s.past c.advance blocks) ∧
      Faces ctx (m.after { kind := .newLine, length := 1, text := [0x0A] }) c.advance rest := by
  have hmeets := h.lineFeed
  have hadvance : s.past c.advance blocks
      = { s.past c blocks with cursor := (s.past c blocks).cursor.advance } := by
    rw [State.cursor_past, ← State.past_nil, State.past_past, List.nil_append]
  have hspacing : c.current.isSpacing = true := by simp [Token.isSpacing, hmeets.kind]
  have hahead : (s.past c blocks).cursor.ahead = c.current :: c.ahead.tail := by
    rw [State.cursor_past]
    exact hmeets.ahead
  refine ⟨?_, hmeets.faces⟩
  rw [hadvance]
  exact .of_isSpacing (by rw [State.inline?_past, hi]) hahead hspacing

/-- What a line has become: its words as one text, with nothing marked. -/
def IsLine (line : Line) (ns : List Inline) : Prop :=
  ∃ start stop, ns = [.text (.span start stop) line.text]

theorem IsLine.eq {line : Line} {ns : List Inline} (h : IsLine line ns) :
    Inline.mapAllOffsets (fun _ => ()) ns = line.toInlines := by
  obtain ⟨start, stop, rfl⟩ := h
  rfl

/-- A line of words is closed as one text, whatever space stands around it. -/
theorem isLine_finish {before after : Text} (hb : before = [] ∨ before = [0x20])
    (ha : after = [] ∨ after = [0x20]) (line : Line) {f : Fragments}
    (h : ∃ info, f.toList = [.text info (before ++ (line.text ++ after))]) :
    IsLine line f.finish := by
  have hsqueeze := line.tight.squeeze_surrounded hb ha
  obtain ⟨info, h⟩ := h
  refine ⟨info.start, info.stop, ?_⟩
  rw [Fragments.finish, h, Inline.normalize_text info (by rw [hsqueeze]; exact line.tight.ne_nil),
    hsqueeze]
  rfl

theorem isLine_words (line : Line) (start stop : Nat) :
    IsLine line (({} : Fragments).pushText start stop line.text).finish := by
  refine isLine_finish (.inl rfl) (.inl rfl) line ⟨.span start stop, ?_⟩
  simp [Fragments.toList, Fragments.flush, Fragments.pushText, OpenText.toInline, NodeInfo.span]

theorem isLine_words_space {before : Text} (hb : before = [] ∨ before = [0x20]) (line : Line)
    (start stop start' stop' : Nat) :
    IsLine line ((({} : Fragments).pushText start stop (before ++ line.text)).pushText start' stop'
      [0x20]).finish := by
  refine isLine_finish hb (.inr rfl) line ⟨.span start stop', ?_⟩
  simp [Fragments.toList, Fragments.flush, Fragments.pushText, OpenText.toInline, NodeInfo.span]

/-- A line and two line feeds are a paragraph, where no paragraph is open. -/
theorem leads_paragraph {before : Text} (hb : before = [] ∨ before = [0x20]) (line : Line)
    (hi : s.inline? = none)
    (h : Faces ctx m s.cursor (before ++ (line.text ++ 0x0A :: 0x0A :: rest))) :
    ∃ c m' info ns, Leads ctx s (s.past c [.paragraph info ns]) ∧ Faces ctx m' c rest ∧
      info.flags = {} ∧ IsLine line ns := by
  have hplain : ∀ u ∈ before ++ line.text, CodeUnit.isPlain u = true := by
    intro u hu
    rcases List.mem_append.mp hu with hu | hu
    · rcases hb with rfl | rfl
      · simp at hu
      · rw [List.mem_singleton.mp hu]
        decide
    · exact line.isPlain u hu
  have hblank : (before ++ line.text).isBlank = false := by
    rw [Text.isBlank_append, line.isBlank, Bool.and_false]
  rw [← List.append_assoc] at h
  have htext := h.run (by simp [line.tight.ne_nil]) hplain
    (Lexeme.forall_mem_head?_cons (by decide) _)
  have hfeed := htext.faces.lineFeed
  have hblankLine := hfeed.faces.lineFeed
  have hopen : Leads ctx s (s.inLine (.paragraph s.cursor.current.start) s.cursor {}) := by
    refine .of_paragraph_start hi ?_ (by simp [Surround.endsAt, htext.kind]) ?_
    · simp [Token.isSpacing, Token.isBlankText, htext.kind, htext.text, hblank]
    · simp only [State.beginBlock, htext.kind]
  -- The line has content, so its line feed is a space; the next one ends the paragraph.
  have hinside : Surround.endsAt s.inList s.cursor.advance.current .paragraph = false := by
    simp [Surround.endsAt, hfeed.kind, Token.isBlankLine, hfeed.blankLine, LineMark.after, hblank]
  have hends : Surround.endsAt s.inList s.cursor.advance.advance.current .paragraph = true := by
    simp [Surround.endsAt, hblankLine.kind, Token.isBlankLine, hblankLine.blankLine,
      LineMark.after]
  have hclose := hopen.trans ((Leads.text_inLine htext.kind htext.malformed).trans
    ((Leads.newLine_inLine hfeed.kind hinside).trans (.of_paragraph_end hi hends)))
  rw [htext.text] at hclose
  have hline := isLine_words_space hb line s.cursor.current.start s.cursor.current.stop
    s.cursor.advance.current.start s.cursor.advance.current.stop
  rw [if_neg (by obtain ⟨start, stop, heq⟩ := hline; simp [heq])] at hclose
  obtain ⟨hpass, hfaces⟩ := leads_past_lineFeed hi
    [.paragraph (.span s.cursor.current.start s.cursor.advance.advance.lastStop) _] hfeed.faces
  exact ⟨_, _, _, _, hclose.trans hpass, hfaces, rfl, hline⟩

/-! ## Headings -/

theorem Level.headingLevel? (level : Level) :
    LatexMarkdown.headingLevel? level.command = some level.number := by
  cases level <;> decide

theorem Level.clampLevel (level : Level) : Parse.clampLevel level.number = level.number := by
  cases level <;> decide

theorem meets_level {c : Cursor} (level : Level) {tail : Text}
    (h : Faces ctx m c (0x5C :: (level.command ++ 0x7B :: tail))) :
    Meets ctx m { kind := .command, length := 1 + level.command.length, text := level.command }
      (0x5C :: level.command) (0x7B :: tail) c := by
  have hbrace : ∀ u ∈ (0x7B :: tail).head?, CodeUnit.isLetter u = false ∧ u ≠ 0x2A :=
    Lexeme.forall_mem_head?_cons (by decide) _
  cases level <;>
    exact h.command (by decide) (by decide) (by decide) (by decide) (by decide) hbrace

/-- A sectioning command before an opening brace opens a heading. -/
theorem step_opens_heading (ctx : Context) {level : Level} (hi : s.inline? = none) (hd : s.depth < nestingLimit)
    (hk : s.cursor.current.kind = .command) (ht : s.cursor.current.text = level.command)
    (hopen : s.cursor.advance.current.kind = .groupOpen) :
    s.step ctx = .ok (some
      (s.inLine (.heading s.cursor.marker level.number s.cursor.advance.marker)
        s.cursor.advance.advance {})) := by
  have hs : s.cursor.current.isSpacing = false := by
    simp [Token.isSpacing, Token.isBlankText, hk]
  have hitem : s.cursor.current.text ≠ "item" := by
    rw [ht]
    cases level <;> decide
  have hs' : s.cursor.advance.current.isArgumentSpacing = false := by
    simp [Token.isArgumentSpacing, Token.isBlankText, hopen]
  have hskip : Parse.skipOptionalArgument s.cursor.advance = s.cursor.advance := by
    rw [Parse.skipOptionalArgument, Parse.startArgument?_of_current _ hs', if_neg (by simp [hopen])]
  rw [State.step_of_inline?_none hi hs]
  simp only [hk, State.beginBlock, State.takeBlockCommand_of_ne_item hitem, State.takeOtherCommand,
    ht, level.headingLevel?, State.beginHeading, hskip, Parse.startGroup_of_groupOpen hopen, State.checkDepth_of_le hd]
  rfl

/-- A closing brace closes a heading, which is added with its level. -/
theorem leads_heading_end {level : Level} {command opener : Marker} {c : Cursor} {f : Fragments}
    (hi : s.inline? = none) (hoffset : ctx.settings.headingLevelOffset = 0)
    (hk : c.current.kind = .groupClose) :
    Leads ctx (s.inLine (.heading command level.number opener) c f) (s.past c.advance
      [.heading (.span command.token.start c.advance.lastStop) (.ofNat level.number) f.finish]) := by
  have hnone : ({ s with cursor := c.advance, inline? := none } : State)
      = { s with cursor := c.advance } := by
    rw [← hi]
  have hclose : (s.inLine (.heading command level.number opener) c f).closeHeading ctx command
      level.number f = s.past c.advance
        [.heading (.span command.token.start c.advance.lastStop) (.ofNat level.number) f.finish] := by
    simp only [State.closeHeading, hoffset, Int.add_zero, level.clampLevel, ne_eq,
      not_true_eq_false, decide_false, Bool.false_eq_true, if_false]
    exact congrArg (fun s : State => s.addBlocks _) hnone
  refine .of_closeInline rfl (show (c.current.kind == .groupClose) = true by simp [hk]) ?_
  exact congrArg Except.ok hclose

/-- A heading is read with its level and its words. -/
theorem leads_heading (level : Level) (line : Line) (hi : s.inline? = none)
    (hoffset : ctx.settings.headingLevelOffset = 0) (hd : s.depth < nestingLimit)
    (h : Faces ctx m s.cursor (printHeading level line ++ rest)) :
    ∃ c m' info ns, Leads ctx s (s.past c [.heading info (.ofNat level.number) ns]) ∧
      Faces ctx m' c rest ∧ info.flags = {} ∧ IsLine line ns := by
  have hshape : printHeading level line ++ rest
      = 0x5C :: (level.command ++ 0x7B :: (line.text ++ 0x7D :: 0x0A :: rest)) := by
    simp [printHeading, withBreak]
  rw [hshape] at h
  have hcommand := meets_level level h
  have hbrace := hcommand.faces.single .groupOpen rfl
  have htext := hbrace.faces.run line.tight.ne_nil line.isPlain
    (Lexeme.forall_mem_head?_cons (by decide) _)
  have hclosing := htext.faces.single .groupClose rfl
  have hopen := Leads.of_step
    (step_opens_heading ctx hi hd hcommand.kind hcommand.text hbrace.kind)
  have hclose := hopen.trans ((Leads.text_inLine htext.kind htext.malformed).trans
    (leads_heading_end hi hoffset hclosing.kind))
  rw [htext.text] at hclose
  obtain ⟨hpass, hfaces⟩ := leads_past_lineFeed hi _ hclosing.faces
  exact ⟨_, _, _, _, hclose.trans hpass, hfaces, rfl, isLine_words line _ _⟩

/-! ## What reading a tree means -/

/-- Between blocks, wherever its source stands, the tree is read as its block. -/
def Reads (ctx : Context) (t : Tree) : Prop :=
  ∀ (s : State) (m : LineMark) (rest : Text), s.inline? = none → s.depth + t.depth < nestingLimit →
    Faces ctx m s.cursor (t.print ++ rest) →
    ∃ c m' b, Leads ctx s (s.past c [b]) ∧ Faces ctx m' c rest ∧
      b.mapOffsets (fun _ => ()) = t.toBlock

/-- Between blocks, wherever their source stands, the trees are read as their blocks. -/
def ReadsAll (ctx : Context) (ts : List Tree) : Prop :=
  ∀ (s : State) (m : LineMark) (rest : Text), s.inline? = none →
    s.depth + Tree.depthOf ts < nestingLimit → Faces ctx m s.cursor (Tree.printAll ts ++ rest) →
    ∃ c m' new, Leads ctx s (s.past c new) ∧ Faces ctx m' c rest ∧
      Block.mapAllOffsets (fun _ => ()) new.reverse = Tree.toBlocks ts

/-- The items of a list, when its open item is closed too. -/
def closedItems (l : OpenList) (blocks : List Block) : List (ListItem Unit) :=
  ListItem.mapAllOffsets (fun _ => ())
    (if l.item.implicit then l.items
      else Parse.listItem 0 0 l.item.label blocks.reverse :: l.items).reverse

/-- The state inside an environment, with its blocks so far and the cursor moved. -/
def inside (s : State) (marker : Marker) (outer : List OpenEnvironment) (role : Role) (c : Cursor)
    (blocks : List Block) : State :=
  { s with cursor := c, environments := ⟨marker, role, blocks⟩ :: outer }

/-- Inside a list, the items are added to those that it has. -/
def ReadsItems (ctx : Context) (es : List Entry) : Prop :=
  ∀ (s : State) (m : LineMark) (rest : Text) (marker : Marker) (outer : List OpenEnvironment)
    (c : Cursor) (l : OpenList) (blocks : List Block), s.inline? = none →
    outer.length + 1 + Entry.depthOf es < nestingLimit → (l.item.implicit = true → blocks = []) →
    Faces ctx m c (Entry.printAll es ++ rest) →
    ∃ c' m' l' blocks', Leads ctx (inside s marker outer (.list l) c blocks)
        (inside s marker outer (.list l') c' blocks') ∧
      Faces ctx m' c' rest ∧ (l'.item.implicit = true → blocks' = []) ∧ l'.ordered = l.ordered ∧
      closedItems l' blocks' = closedItems l blocks ++ Entry.toItems es

theorem reads_paragraph (line : Line) : Reads ctx (.paragraph line) := by
  intro s m rest hi _ h
  have hshape : (Tree.paragraph line).print ++ rest
      = [] ++ (line.text ++ 0x0A :: 0x0A :: rest) := by
    simp [Tree.print]
  rw [hshape] at h
  obtain ⟨c, m', info, ns, hlead, hfaces, hflags, hline⟩ := leads_paragraph (.inl rfl) line hi h
  refine ⟨c, m', _, hlead, hfaces, ?_⟩
  rw [Block.mapOffsets, Tree.toBlock, hline.eq, NodeInfo.mapOffsets, hflags]
  rfl

theorem reads_heading (hoffset : ctx.settings.headingLevelOffset = 0) (level : Level)
    (line : Line) : Reads ctx (.heading level line) := by
  intro s m rest hi hd h
  rw [Tree.print] at h
  obtain ⟨c, m', info, ns, hlead, hfaces, hflags, hline⟩ :=
    leads_heading level line hi hoffset (by simpa [Tree.depth] using hd) h
  refine ⟨c, m', _, hlead, hfaces, ?_⟩
  rw [Block.mapOffsets, Tree.toBlock, hline.eq, NodeInfo.mapOffsets, hflags]
  rfl

theorem readsAll_nil : ReadsAll ctx [] := by
  intro s m rest hi _ h
  refine ⟨s.cursor, m, [], ?_, h, rfl⟩
  rw [State.past_nil]
  exact .refl s

theorem readsAll_cons {t : Tree} {ts : List Tree} (ht : Reads ctx t) (hts : ReadsAll ctx ts) :
    ReadsAll ctx (t :: ts) := by
  intro s m rest hi hd h
  rw [Tree.depthOf] at hd
  rw [Tree.printAll, List.append_assoc] at h
  obtain ⟨c, m', b, hlead, hfaces, hb⟩ := ht s m _ hi (by omega) h
  obtain ⟨c', m'', new, hlead', hfaces', hnew⟩ := hts (s.past c [b]) m' rest
    (by rw [State.inline?_past, hi]) (by rw [State.depth_past]; omega)
    (by rw [State.cursor_past]; exact hfaces)
  rw [State.past_past] at hlead'
  refine ⟨c', m'', new ++ [b], hlead.trans hlead', hfaces', ?_⟩
  rw [List.reverse_append, List.reverse_singleton, List.singleton_append, Block.mapAllOffsets, hb,
    hnew, Tree.toBlocks]

/-! ## Environments -/

theorem past_inside (s : State) (marker : Marker) (outer : List OpenEnvironment) (role : Role)
    (c c' : Cursor) (blocks new : List Block) :
    (inside s marker outer role c blocks).past c' new
      = inside s marker outer role c' (new ++ blocks) := rfl

theorem depth_eq (hi : s.inline? = none) : s.depth = s.environments.length := by
  simp [State.depth, hi]

/-- Inside an environment everything is one level deeper. -/
theorem depth_inside (hi : s.inline? = none) (marker : Marker) (outer : List OpenEnvironment)
    (role : Role) (c : Cursor) (blocks : List Block) :
    (inside s marker outer role c blocks).depth = outer.length + 1 := by
  simp [State.depth, inside, hi]

/-- A begin marker opens a quote. -/
theorem leads_quote_start (hi : s.inline? = none) (hd : s.depth < nestingLimit)
    (hk : s.cursor.current.kind = .envBegin) (ht : s.cursor.current.text = "quote") :
    Leads ctx s (inside s s.cursor.marker s.environments .quote s.cursor.advance []) := by
  have hkind : EnvironmentKind.ofName? s.cursor.marker.text = some .quote := by
    rw [Marker.text, Cursor.marker, ht]
    decide
  refine .of_step ?_
  rw [State.step_of_envBegin hi hk]
  simp only [State.beginEnvironment, State.checkDepth_of_le hd, hkind]
  rfl

/-- Its end marker closes a quote. -/
theorem leads_quote_end (marker : Marker) {c : Cursor} (hi : s.inline? = none)
    (blocks : List Block) (hk : c.current.kind = .envEnd) (ht : c.current.text = marker.text) :
    Leads ctx (inside s marker s.environments .quote c blocks) (s.past c.advance
      [.quote (.span marker.token.start c.advance.lastStop) blocks.reverse]) := by
  have hstep : (inside s marker s.environments .quote c blocks).step ctx = _ :=
    State.step_of_envEnd hi hk
  refine .of_step (hstep.trans ?_)
  exact congrArg (fun x : Except Parse.Failure State => some <$> x) (if_pos ht)

theorem reads_quote {ts : List Tree} (h : ReadsAll ctx ts) : Reads ctx (.quote ts) := by
  intro s m rest hi hd hf
  rw [Tree.depth] at hd
  have hshape : (Tree.quote ts).print ++ rest = Lexeme.spellMarker false "quote" ++ (0x0A ::
      (Tree.printAll ts ++ (Lexeme.spellMarker true "quote" ++ 0x0A :: rest))) := by
    simp [Tree.print, printEnvironment, withBreak]
  rw [hshape] at hf
  have hbegin := hf.marker false (by decide) (by decide) (by decide)
  have hopen : Leads ctx s _ := leads_quote_start hi (by omega) hbegin.kind hbegin.text
  obtain ⟨hbreak, hfaces⟩ := leads_past_lineFeed
    (s := inside s s.cursor.marker s.environments .quote s.cursor.advance []) hi [] hbegin.faces
  have hdepth := depth_inside hi s.cursor.marker s.environments .quote s.cursor.advance.advance []
  have hdepth' := depth_eq hi
  obtain ⟨c, m', new, hbody, hfaces', hnew⟩ :=
    h (inside s s.cursor.marker s.environments .quote s.cursor.advance.advance []) _ _ hi
      (by omega) hfaces
  rw [past_inside, List.append_nil] at hbody
  have hend := hfaces'.marker true (by decide) (by decide) (by decide)
  have hclose : Leads ctx _ _ :=
    leads_quote_end s.cursor.marker hi new hend.kind (hend.text.trans hbegin.text.symm)
  obtain ⟨hbreak', hfaces''⟩ := leads_past_lineFeed hi [_] hend.faces
  refine ⟨_, _, _, hopen.trans (hbreak.trans (hbody.trans (hclose.trans hbreak'))), hfaces'', ?_⟩
  rw [Block.mapOffsets, hnew, Tree.toBlock]
  rfl

/-! ## Lists -/

/-- Blocks as a list item: a paragraph in front is its line. -/
def itemOf (blocks : List (Block Unit)) : ListItem Unit :=
  match blocks with
  | .paragraph _ children :: rest => ⟨.span () (), children, rest⟩
  | blocks => ⟨.span () (), [], blocks⟩

theorem mapOffsets_listItem (start stop : Nat) (blocks : List Block) :
    (Parse.listItem start stop [] blocks).mapOffsets (fun _ => ())
      = itemOf (Block.mapAllOffsets (fun _ => ()) blocks) := by
  cases blocks with
  | nil => rfl
  | cons b rest => cases b <;> rfl

/-- The span of an item is all that depends on its place. -/
theorem mapOffsets_listItem_eq (start stop : Nat) (label : List Inline) (blocks : List Block) :
    (Parse.listItem start stop label blocks).mapOffsets (fun _ => ())
      = (Parse.listItem 0 0 label blocks).mapOffsets (fun _ => ()) := by
  cases blocks with
  | nil => rfl
  | cons b rest => cases b <;> rfl

/-- Closing the open item of a list gives the items that it then has. -/
theorem finishItem_eq (s : State) (marker : Marker) (l : OpenList) (blocks : List Block)
    (h : l.item.implicit = true → blocks = []) :
    ∃ items, s.finishItem ⟨marker, .list l, blocks⟩ l = (s, items) ∧
      ListItem.mapAllOffsets (fun _ => ()) items.reverse = closedItems l blocks := by
  cases himplicit : l.item.implicit with
  | true =>
    refine ⟨l.items, ?_, ?_⟩
    · simp [State.finishItem, himplicit, h himplicit]
    · rw [closedItems, himplicit]
      rfl
  | false =>
    refine ⟨Parse.listItem l.item.start s.cursor.lastStop l.item.label blocks.reverse :: l.items,
      ?_, ?_⟩
    · simp [State.finishItem, himplicit]
    · rw [closedItems, himplicit, if_neg (by simp), ListItem.mapAllOffsets_eq_map,
        ListItem.mapAllOffsets_eq_map, List.map_reverse, List.map_reverse, List.map_cons,
        List.map_cons, mapOffsets_listItem_eq]

/-- A begin marker opens a list; the line feed behind it is skipped. -/
theorem leads_list_start (ordered : Bool) (hi : s.inline? = none) (hd : s.depth < nestingLimit)
    (hk : s.cursor.current.kind = .envBegin) (ht : s.cursor.current.text = listName ordered)
    (hbreak : s.cursor.advance.current.kind = .newLine)
    (hahead : s.cursor.advance.ahead = s.cursor.advance.current :: s.cursor.advance.ahead.tail)
    (hs : s.cursor.advance.advance.current.isSpacing = false) :
    Leads ctx s (inside s s.cursor.marker s.environments
      (.list { ordered, item := { start := s.cursor.advance.advance.current.start, implicit := true } })
      s.cursor.advance.advance []) := by
  have hskip : s.cursor.advance.skipSpacing = s.cursor.advance.advance := by
    rw [Cursor.skipSpacing_of_isSpacing hahead (by simp [Token.isSpacing, hbreak]),
      Cursor.skipSpacing_eq_self hs]
  have hkind : EnvironmentKind.ofName? s.cursor.marker.text
      = some (if ordered then .orderedList else .unorderedList) := by
    rw [Marker.text, Cursor.marker, ht]
    cases ordered <;> decide
  refine .of_step ?_
  rw [State.step_of_envBegin hi hk]
  cases ordered <;>
    simp only [State.beginEnvironment, State.checkDepth_of_le hd, hkind, State.beginList, hskip] <;>
    rfl

/-- Its end marker closes a list, and with it the last item. -/
theorem leads_list_end (ctx : Context) (marker : Marker) {c : Cursor} {l : OpenList} {blocks : List Block}
    (hi : s.inline? = none) (himplicit : l.item.implicit = true → blocks = [])
    (hk : c.current.kind = .envEnd) (ht : c.current.text = marker.text) :
    ∃ items : List ListItem,
      Leads ctx (inside s marker s.environments (.list l) c blocks) (s.past c.advance
        [.list (.span marker.token.start c.advance.lastStop) l.ordered items.reverse]) ∧
      ListItem.mapAllOffsets (fun _ => ()) items.reverse = closedItems l blocks := by
  have hstep : (inside s marker s.environments (.list l) c blocks).step ctx = _ :=
    State.step_of_envEnd hi hk
  obtain ⟨items, hfinish, hitems⟩ := finishItem_eq
    (inside s marker s.environments (.list l) c blocks) marker l blocks himplicit
  refine ⟨items, .of_step (hstep.trans ?_), hitems⟩
  have hclose : (inside s marker s.environments (.list l) c blocks).closeEnvironment
      ⟨marker, .list l, blocks⟩ s.environments
      = s.past c.advance [.list (.span marker.token.start c.advance.lastStop) l.ordered items.reverse] := by
    simp only [State.closeEnvironment, hfinish]
    rfl
  rw [← hclose]
  exact congrArg (fun x : Except Parse.Failure State => some <$> x) (if_pos ht)

/-- An item marker closes the open item and begins the next. -/
theorem leads_item (ctx : Context) (marker : Marker) (outer : List OpenEnvironment) {c : Cursor} {l : OpenList}
    {blocks : List Block} (hi : s.inline? = none) (himplicit : l.item.implicit = true → blocks = [])
    (hk : c.current.kind = .command) (ht : c.current.text = "item")
    (hb : Parse.startArgument? .bracketOpen c.advance = none) :
    ∃ l', Leads ctx (inside s marker outer (.list l) c blocks)
        (inside s marker outer (.list l') c.advance []) ∧
      l'.item.implicit = false ∧ l'.item.label = [] ∧ l'.ordered = l.ordered ∧
      ListItem.mapAllOffsets (fun _ => ()) l'.items.reverse = closedItems l blocks := by
  obtain ⟨items, hfinish, hitems⟩ := finishItem_eq
    (inside s marker outer (.list l) c blocks) marker l blocks himplicit
  refine ⟨{ l with items, item := { start := c.current.start, implicit := false } }, .of_step ?_,
    rfl, rfl, rfl, hitems⟩
  have hk' : (inside s marker outer (.list l) c blocks).cursor.current.kind = .command := hk
  have hitem : (inside s marker outer (.list l) c blocks).takeBlockCommand ctx
      = (inside s marker outer (.list l) c blocks).beginItem ⟨marker, .list l, blocks⟩ outer l :=
    if_pos ht
  have hlabel : ∀ (t : State) (item : Marker), t.cursor = c.advance → t.beginLabel item = .ok t := by
    intro t item htc
    rw [State.beginLabel, htc, hb]
  rw [State.step_of_inline?_none (s := inside s marker outer (.list l) c blocks) hi
    (by simp [Token.isSpacing, Token.isBlankText, hk'])]
  simp only [hk', State.beginBlock, hitem, State.beginItem, hfinish]
  rw [hlabel _ _ rfl]
  rfl

/-- What stands behind an item marker. -/
def afterItem (line? : Option Line) (rest : Text) : Text :=
  match line? with
  | some line => [0x20] ++ (line.text ++ 0x0A :: 0x0A :: rest)
  | none => 0x0A :: rest

theorem meets_item {c : Cursor} (line? : Option Line)
    (h : Faces ctx m c (printItem line? ++ rest)) :
    Meets ctx m { kind := .command, length := 1 + (Text.ofString "item").length, text := "item" }
      (0x5C :: "item") (afterItem line? rest) c := by
  have hshape : printItem line? ++ rest = 0x5C :: (Text.ofString "item" ++ afterItem line? rest) := by
    cases line? <;> simp [printItem, afterItem, withBreak]
  have hafter : ∀ u ∈ (afterItem line? rest).head?, CodeUnit.isLetter u = false ∧ u ≠ 0x2A := by
    cases line? <;>
      simp only [afterItem, List.cons_append, List.head?_cons, Option.mem_def, Option.some.injEq,
        forall_eq'] <;>
      decide
  rw [hshape] at h
  exact h.command (by decide) (by decide) (by decide) (by decide) (by decide) hafter

/-- Where items or the end marker of a list follow, no spacing does. -/
theorem isSpacing_current_items {c : Cursor} {name : Text} (es : List Entry)
    (hne : name ≠ []) (hname : ∀ u ∈ name, CodeUnit.isEnvironmentName u = true)
    (hraw : name ∉ rawEnvironments)
    (h : Faces ctx m c (Entry.printAll es ++ (Lexeme.spellMarker true name ++ rest))) :
    c.current.isSpacing = false := by
  cases es with
  | nil =>
    have hend := Faces.marker true h hne hname hraw
    simp [Token.isSpacing, Token.isBlankText, hend.kind, Lexeme.markerKind]
  | cons e more =>
    obtain ⟨line?, blocks⟩ := e
    rw [Entry.printAll, List.append_assoc, List.append_assoc] at h
    have hitem := meets_item line? h
    simp [Token.isSpacing, Token.isBlankText, hitem.kind]

/-- Behind its marker an item has its line, if any, as the only block. -/
theorem leads_item_line (marker : Marker) (outer : List OpenEnvironment) {c : Cursor} (l : OpenList)
    (line? : Option Line) (hi : s.inline? = none) (h : Faces ctx m c (afterItem line? rest)) :
    ∃ c' m' blocks, Leads ctx (inside s marker outer (.list l) c [])
        (inside s marker outer (.list l) c' blocks) ∧ Faces ctx m' c' rest ∧
      Block.mapAllOffsets (fun _ => ()) blocks
        = (line?.map fun line => Block.paragraph (.span () ()) line.toInlines).toList := by
  cases line? with
  | none =>
    obtain ⟨hpass, hfaces⟩ :=
      leads_past_lineFeed (s := inside s marker outer (.list l) c []) hi [] h
    exact ⟨_, _, [], hpass, hfaces, rfl⟩
  | some line =>
    obtain ⟨c', m', info, ns, hlead, hfaces, hflags, hline⟩ :=
      leads_paragraph (s := inside s marker outer (.list l) c []) (.inr rfl) line hi h
    refine ⟨c', m', [.paragraph info ns], hlead, hfaces, ?_⟩
    rw [Block.mapAllOffsets, Block.mapOffsets, hline.eq, NodeInfo.mapOffsets, hflags]
    rfl

/-- The item that an entry stands for. -/
theorem itemOf_entry {line? : Option Line} {ts : List Tree}
    (h : line? = none → ∀ t ∈ ts.head?, t.isParagraph = false) :
    itemOf ((line?.map fun line => Block.paragraph (.span () ()) line.toInlines).toList
        ++ Tree.toBlocks ts)
      = ⟨.span () (), (line?.map Line.toInlines).getD [], Tree.toBlocks ts⟩ := by
  cases line? with
  | some line => rfl
  | none =>
    cases ts with
    | nil => rfl
    | cons t rest =>
      have ht := h rfl t rfl
      cases t with
      | paragraph line => exact absurd ht (by simp [Tree.isParagraph])
      | _ => rfl

/-- With an item closed, a list has one item more. -/
theorem closedItems_of_explicit {l : OpenList} (himplicit : l.item.implicit = false)
    (hlabel : l.item.label = []) (blocks : List Block) :
    closedItems l blocks = ListItem.mapAllOffsets (fun _ => ()) l.items.reverse
      ++ [itemOf (Block.mapAllOffsets (fun _ => ()) blocks.reverse)] := by
  rw [closedItems, himplicit, if_neg (by simp), hlabel, List.reverse_cons,
    ListItem.mapAllOffsets_eq_map, ListItem.mapAllOffsets_eq_map, List.map_append,
    List.map_singleton, mapOffsets_listItem]

theorem readsItems_nil : ReadsItems ctx [] := by
  intro s m rest marker outer c l blocks hi _ himplicit h
  refine ⟨c, m, l, blocks, .refl _, h, himplicit, rfl, ?_⟩
  rw [Entry.toItems, List.append_nil]

theorem readsItems_cons (hb : 0x5B ∉ ctx.source.toList) {line? : Option Line} {ts : List Tree}
    {es : List Entry} (hline : line? = none → ∀ t ∈ ts.head?, t.isParagraph = false)
    (hts : ReadsAll ctx ts) (hes : ReadsItems ctx es) : ReadsItems ctx (⟨line?, ts⟩ :: es) := by
  intro s m rest marker outer c l blocks hi hd himplicit h
  rw [Entry.depthOf] at hd
  rw [Entry.printAll, List.append_assoc, List.append_assoc] at h
  have hitem := meets_item line? h
  obtain ⟨l', hlead, himplicit', hlabel, hordered, hitems⟩ := leads_item ctx marker outer hi
    himplicit hitem.kind hitem.text (hitem.faces.startArgument? hb)
  obtain ⟨c', m', lines, hlead', hfaces, hlines⟩ :=
    leads_item_line marker outer l' line? hi hitem.faces
  -- The blocks of the item are read inside the list.
  have hdepth := depth_inside hi marker outer (.list l') c' lines
  obtain ⟨c'', m'', new, hlead'', hfaces', hnew⟩ :=
    hts (inside s marker outer (.list l') c' lines) m' _ hi (by omega) hfaces
  rw [past_inside] at hlead''
  obtain ⟨d, n, k, all, hrest, hfaces'', hkimplicit, hkordered, hall⟩ :=
    hes s m'' rest marker outer c'' l' (new ++ lines) hi (by omega)
      (fun htrue => absurd (himplicit'.symm.trans htrue) (by simp)) hfaces'
  refine ⟨d, n, k, all, hlead.trans (hlead'.trans (hlead''.trans hrest)), hfaces'', hkimplicit,
    hkordered.trans hordered, ?_⟩
  have hreverse : Block.mapAllOffsets (fun _ => ()) (new ++ lines).reverse
      = (line?.map fun line => Block.paragraph (.span () ()) line.toInlines).toList
        ++ Tree.toBlocks ts := by
    rw [List.reverse_append, Block.mapAllOffsets_eq_map, List.map_append, List.map_reverse,
      ← Block.mapAllOffsets_eq_map, ← Block.mapAllOffsets_eq_map, hlines, hnew]
    cases line? <;> rfl
  rw [hall, closedItems_of_explicit himplicit' hlabel, hreverse, itemOf_entry hline, hitems,
    Entry.toItems, List.append_assoc, List.singleton_append]

theorem reads_list (ordered : Bool) {es : List Entry} (h : ReadsItems ctx es) :
    Reads ctx (.list ordered es) := by
  intro s m rest hi hd hf
  rw [Tree.depth] at hd
  have hshape : (Tree.list ordered es).print ++ rest
      = Lexeme.spellMarker false (listName ordered) ++ (0x0A ::
        (Entry.printAll es ++ (Lexeme.spellMarker true (listName ordered) ++ 0x0A :: rest))) := by
    simp [Tree.print, printEnvironment, withBreak]
  have hne : listName ordered ≠ [] := by cases ordered <;> decide
  have hname : ∀ u ∈ listName ordered, CodeUnit.isEnvironmentName u = true := by
    cases ordered <;> decide
  have hraw : listName ordered ∉ rawEnvironments := by cases ordered <;> decide
  rw [hshape] at hf
  have hbegin := hf.marker false hne hname hraw
  have hbreak := hbegin.faces.lineFeed
  have hspacing := isSpacing_current_items es hne hname hraw hbreak.faces
  have hdepth := depth_eq hi
  have hopen : Leads ctx s _ := leads_list_start ordered hi (by omega) hbegin.kind hbegin.text
    hbreak.kind hbreak.ahead hspacing
  obtain ⟨c, m', l, blocks, hbody, hfaces, himplicit, hordered, hitems⟩ :=
    h s _ _ s.cursor.marker s.environments s.cursor.advance.advance _ [] hi (by omega)
      (fun _ => rfl) hbreak.faces
  have hend := hfaces.marker true hne hname hraw
  obtain ⟨items, hclose, hclosed⟩ := leads_list_end ctx s.cursor.marker hi himplicit hend.kind
    (hend.text.trans hbegin.text.symm)
  obtain ⟨hpass, hfaces'⟩ := leads_past_lineFeed hi [_] hend.faces
  refine ⟨_, _, _, hopen.trans (hbody.trans (hclose.trans hpass)), hfaces', ?_⟩
  rw [Block.mapOffsets, hclosed, hitems, hordered, Tree.toBlock]
  rfl

/-! ## Every tree -/

mutual

/-- Every tree is read as its block. -/
theorem reads (hoffset : ctx.settings.headingLevelOffset = 0) (hb : 0x5B ∉ ctx.source.toList) :
    ∀ t : Tree, t.Regular → Reads ctx t
  | .paragraph line, _ => reads_paragraph line
  | .heading level line, _ => reads_heading hoffset level line
  | .quote ts, h => reads_quote (readsAll hoffset hb ts h)
  | .list ordered es, h => reads_list ordered (readsItems hoffset hb es h)

theorem readsAll (hoffset : ctx.settings.headingLevelOffset = 0) (hb : 0x5B ∉ ctx.source.toList) :
    ∀ ts : List Tree, Tree.AllRegular ts → ReadsAll ctx ts
  | [], _ => readsAll_nil
  | t :: ts, h => readsAll_cons (reads hoffset hb t h.1) (readsAll hoffset hb ts h.2)

theorem readsItems (hoffset : ctx.settings.headingLevelOffset = 0)
    (hb : 0x5B ∉ ctx.source.toList) : ∀ es : List Entry, Entry.AllRegular es → ReadsItems ctx es
  | [], _ => readsItems_nil
  | ⟨_, ts⟩ :: es, h =>
    readsItems_cons hb h.1 (readsAll hoffset hb ts h.2.1) (readsItems hoffset hb es h.2.2)

end

/-- A run over printed trees comes to their blocks. -/
theorem outcomeOf_printAll {settings : Settings} (hoffset : settings.headingLevelOffset = 0)
    {ts : List Tree} (hregular : Tree.AllRegular ts) (hdepth : Tree.depthOf ts < nestingLimit) :
    ∃ new, Parse.outcomeOf settings (Tree.printAll ts) = .ok (new, []) ∧
      Block.mapAllOffsets (fun _ => ()) new.reverse = Tree.toBlocks ts := by
  have hb : 0x5B ∉ (Context.of settings (Tree.printAll ts)).source.toList := by
    simpa [Context.of] using bracket_not_mem_printAll ts
  have hfaces : Faces (.of settings (Tree.printAll ts)) {}
      (State.initial settings (Tree.printAll ts)).cursor (Tree.printAll ts ++ []) := by
    rw [List.append_nil]
    exact Parse.faces_initial settings (Tree.printAll ts)
  have hzero : (State.initial settings (Tree.printAll ts)).depth = 0 := rfl
  obtain ⟨c, m, new, hlead, hend, hnew⟩ := readsAll hoffset hb ts hregular
    (State.initial settings (Tree.printAll ts)) {} [] rfl (by omega) hfaces
  have hpast : (State.initial settings (Tree.printAll ts)).past c new
      = { cursor := c, blocks := new } := by
    simp [State.past, State.addBlocks, State.initial]
  rw [hpast] at hlead
  exact ⟨new, hlead.outcomeOf_eq rfl rfl hend.endOfFile, hnew⟩

/-- Reading undoes printing. -/
theorem parse_print (ts : List Tree) (hregular : Tree.AllRegular ts)
    (hdepth : Tree.depthOf ts ≤ 255) :
    ∃ document, parseDocument (Tree.printAll ts) = .ok { document, diagnostics := [] } ∧
      document.info = .span 0 (Tree.printAll ts).length ∧
      Block.mapAllOffsets (fun _ => ()) document.children = Tree.toBlocks ts := by
  have hoffset : ({} : Settings).headingLevelOffset = 0 := rfl
  obtain ⟨new, houtcome, hnew⟩ := outcomeOf_printAll hoffset hregular (Nat.lt_succ_of_le hdepth)
  have hparse : parseDocument (Tree.printAll ts)
      = (Document.parse {} (Tree.printAll ts)).mapError .structural := rfl
  rw [hparse, Document.parse_eq, houtcome]
  exact ⟨_, rfl, rfl, hnew⟩

/-- The word of a text that is one. -/
def Word.ofText (t : Text) (hne : t ≠ [] := by decide)
    (h : ∀ u ∈ t, (CodeUnit.isLetter u || CodeUnit.isDigit u) = true := by decide) : Word :=
  ⟨t, hne, h⟩

/-- A list with a line, a quote in its item, and an item without a line. -/
def nestedList : List Tree :=
  [.list true
    [⟨some ⟨.ofText "one", [.ofText "2"]⟩, [.quote [.paragraph ⟨.ofText "deep", []⟩]]⟩,
     ⟨none, [.heading .two ⟨.ofText "Title", []⟩, .paragraph ⟨.ofText "end", []⟩]⟩]]

theorem parse_print_nestedList :
    Tree.AllRegular nestedList ∧ Tree.depthOf nestedList ≤ 255 ∧
      ∃ document, parseDocument (Tree.printAll nestedList) = .ok { document, diagnostics := [] } ∧
        document.info = .span 0 (Tree.printAll nestedList).length ∧
        Block.mapAllOffsets (fun _ => ()) document.children = Tree.toBlocks nestedList := by
  have hregular : Tree.AllRegular nestedList := by
    simp [nestedList, Tree.AllRegular, Tree.Regular, Entry.AllRegular, Tree.isParagraph]
  have hdepth : Tree.depthOf nestedList ≤ 255 := by
    simp [nestedList, Tree.depthOf, Tree.depth, Entry.depthOf]
  exact ⟨hregular, hdepth, parse_print nestedList hregular hdepth⟩

end Outline

end LatexMarkdown
