import LatexMarkdown.Proofs.Reports.Marks
import LatexMarkdown.Proofs.Reports.Tally
/-!
  Degradations of structure are reported, each exactly once.

  `State.tally` lists what the blocks of a state have to be reported for, an open list counted as if
  it ended where it is, and `State.reported` what its diagnostics report.  The step lemma is
  `accounts_of_change`: what is new in the tree is newly reported.  Headings and rows come last in
  the tree when they are reported; a list may get its place in front of the blocks of its first item,
  which were reported before it.  So along a run the order of headings and rows is kept, and lists are
  the same up to order (`Tallied.change`).

  Main statement: `degradations_of_parseDocument`.
-/
namespace LatexMarkdown

namespace Parse

/-! ## What a state has to report -/

/-- What finished blocks have to be reported for; the last one comes first. -/
def tallyOf (blocks : List Block) : List Degraded :=
  blocks.reverse.flatMap fun b => (Node.block b).tally

/-- What an open environment has to be reported for. -/
def OpenEnvironment.tally (e : OpenEnvironment) : List Degraded :=
  (match e.role with
    | .list l => Node.tallyItems e.marker.token.start l.items.reverse
    | _ => []) ++ tallyOf e.blocks

/-- What a state has to report, in document order. -/
def State.tally (s : State) : List Degraded :=
  tallyOf s.blocks ++ s.environments.reverse.flatMap OpenEnvironment.tally

/-- What a state has reported, in the order of the reports. -/
def State.reported (s : State) : List Degraded := s.diagnostics.reverse.flatMap Diagnostic.degraded

variable {ctx : Context} {s t : State} {i : OpenInline}

theorem tallyOf_append (bs cs : List Block) : tallyOf (bs ++ cs) = tallyOf cs ++ tallyOf bs := by
  simp [tallyOf]

theorem tallyOf_singleton (b : Block) : tallyOf [b] = (Node.block b).tally := by
  simp [tallyOf]

theorem tally_cons {e : OpenEnvironment} {outer : List OpenEnvironment}
    (h : s.environments = e :: outer) :
    s.tally = tallyOf s.blocks ++ outer.reverse.flatMap OpenEnvironment.tally ++ e.tally := by
  rw [State.tally, h, List.reverse_cons, List.flatMap_append, List.flatMap_singleton,
    List.append_assoc]

/-- Blocks are added at the end of what was read. -/
theorem tally_addBlocks (s : State) (blocks : List Block) :
    (s.addBlocks blocks).tally = s.tally ++ tallyOf blocks := by
  cases he : s.environments with
  | nil =>
    simp only [State.addBlocks, he]
    simp [State.tally, he, tallyOf_append]
  | cons e outer =>
    have hadded : (s.addBlocks blocks).environments
        = { e with blocks := blocks ++ e.blocks } :: outer := by
      simp only [State.addBlocks, he]
    have hblocks : (s.addBlocks blocks).blocks = s.blocks := by
      simp only [State.addBlocks, he]
    rw [tally_cons he, tally_cons hadded, hblocks, OpenEnvironment.tally, OpenEnvironment.tally,
      tallyOf_append, List.append_assoc, List.append_assoc, List.append_assoc, List.append_assoc]

theorem reported_addBlocks (s : State) (blocks : List Block) :
    (s.addBlocks blocks).reported = s.reported := by
  rw [State.reported, State.diagnostics_addBlocks, State.reported]

theorem reported_warn (s : State) (cause : Degradation) (start stop : Nat) :
    (s.warn cause start stop).reported = s.reported ++ Diagnostic.degraded ⟨cause, start, stop⟩ := by
  simp [State.reported, State.warn]

/-! ## Steps -/

/-- From one state to the next, what is new in the tree is newly reported.  Only a list gets its place
in front of what was there. -/
def Accounts (s t : State) : Prop :=
  ∃ before added after, s.tally = before ++ after ∧ t.tally = before ++ added ++ after ∧
    t.reported = s.reported ++ added ∧ (after = [] ∨ ∀ a ∈ added, a.isList = true)

namespace Accounts

theorem of_eq (h : t.tally = s.tally) (hr : t.reported = s.reported) : Accounts s t :=
  ⟨s.tally, [], [], by simp, by simp [h], by simp [hr], .inl rfl⟩

/-- Something is added at the end and reported. -/
theorem of_append (added : List Degraded) (h : t.tally = s.tally ++ added)
    (hr : t.reported = s.reported ++ added) : Accounts s t :=
  ⟨s.tally, added, [], by simp, by simp [h], hr, .inl rfl⟩

/-- The blocks, the open environments and the diagnostics are all that counts. -/
theorem of_same (hblocks : t.blocks = s.blocks) (henvironments : t.environments = s.environments)
    (hdiagnostics : t.diagnostics = s.diagnostics) : Accounts s t :=
  .of_eq (by rw [State.tally, hblocks, henvironments, State.tally])
    (by rw [State.reported, hdiagnostics, State.reported])

/-- Blocks are added that need no report. -/
theorem addBlocks (hblocks : t.blocks = s.blocks) (henvironments : t.environments = s.environments)
    (hdiagnostics : t.diagnostics = s.diagnostics) {blocks : List Block}
    (hb : tallyOf blocks = []) : Accounts s (t.addBlocks blocks) := by
  refine .of_eq ?_ ?_
  · rw [tally_addBlocks, hb, List.append_nil, State.tally, hblocks, henvironments, State.tally]
  · rw [reported_addBlocks, State.reported, hdiagnostics, State.reported]

/-! ### Headings and tables -/

theorem closeParagraph (s : State) (start : Nat) (content : Fragments) :
    Accounts s (s.closeParagraph start content) := by
  simp only [State.closeParagraph]
  split
  · exact .of_same rfl rfl rfl
  · refine addBlocks (by rfl) (by rfl) (by rfl) ?_
    rw [tallyOf_singleton, Node.tally_paragraph]

/-- A heading is reported when its level was moved, right when it is added. -/
theorem closeHeading (ctx : Context) (s : State) (command : Marker) (level : Nat)
    (content : Fragments) : Accounts s (s.closeHeading ctx command level content) := by
  simp only [State.closeHeading]
  split
  · next hclamped =>
    refine .of_append [.heading command.token.start] ?_ ?_
    · show (State.addBlocks _ _).tally = _
      rw [tally_addBlocks, tallyOf_singleton, Node.tally_heading, if_pos hclamped]
      rfl
    · rw [State.warnAt, reported_warn, reported_addBlocks]
      rfl
  · next hclamped =>
    refine addBlocks (by rfl) (by rfl) (by rfl) ?_
    rw [tallyOf_singleton, Node.tally_heading, if_neg hclamped]

/-- The short rows of a table are reported when the table is added. -/
theorem closeTable (s : State) (environment : Text) (rows : List TableRow) (c : Cursor)
    (info : NodeInfo) :
    Accounts s (({ s.warnRagged environment (TableRow.columnCount rows) rows with
      cursor := c
      inline? := none } : State).addBlocks [.table info rows]) := by
  refine .of_append ((rows.filter
    (·.cells.length < TableRow.columnCount rows)).map fun r => .row r.info.start r.info.stop) ?_ ?_
  · rw [State.warnRagged_eq, tally_addBlocks, tallyOf_singleton, Node.tally_table]
    rfl
  · rw [reported_addBlocks, State.warnRagged_eq]
    simp only [State.reported, List.reverse_append, List.reverse_reverse, List.flatMap_append,
      List.flatMap_map]
    rw [List.map_eq_flatMap]
    rfl

end Accounts

/-! ### Lists -/

/-- Lifting the first paragraph of an item out of its blocks loses nothing that has to be reported. -/
theorem tally_listItem (start stop : Nat) (label : List Inline) (blocks : List Block) (i : NodeInfo) :
    (Node.listItem { listItem start stop label blocks with info := i }).tally
      = blocks.flatMap fun b => (Node.block b).tally := by
  rw [Node.tally_listItem]
  cases blocks with
  | nil => rfl
  | cons b rest =>
    cases b with
    | paragraph i cs => rw [List.flatMap_cons, Node.tally_paragraph]; rfl
    | _ => rfl

/-- Finishing the open item of a list reports the list if the item is made up, which only the first
can be. -/
theorem exists_finishItem_tally {e : OpenEnvironment} {l : OpenList} (h : l.Genuine) :
    ∃ added : List Degraded, (∀ a ∈ added, a.isList = true) ∧
      (s.finishItem e l).1.reported = s.reported ++ added ∧
      Node.tallyItems e.marker.token.start (s.finishItem e l).2.reverse
        = Node.tallyItems e.marker.token.start l.items.reverse ++ added ++ tallyOf e.blocks := by
  simp only [State.finishItem]
  split
  · -- An item that is given is not reported.
    refine ⟨[], by simp, by simp, ?_⟩
    rw [List.reverse_cons, Node.tallyItems_concat, List.append_nil]
    · exact congrArg _ (tally_listItem l.item.start s.cursor.lastStop l.item.label e.blocks.reverse
        (.span l.item.start s.cursor.lastStop))
    · rfl
  · next himplicit =>
    have hnil := h.first (by simpa using himplicit)
    split
    · next hempty =>
      rw [List.isEmpty_iff.mp hempty]
      exact ⟨[], by simp, by simp, by simp [tallyOf]⟩
    · refine ⟨[.list e.marker.token.start], by simp [Degraded.isList], ?_, ?_⟩
      · rw [State.warnAt, reported_warn]
        rfl
      · rw [hnil, List.reverse_singleton, Node.tallyItems, List.flatMap_singleton, tally_listItem]
        rfl

theorem Accounts.beginItem {e : OpenEnvironment} {outer : List OpenEnvironment} {l : OpenList}
    (h : l.Genuine) (he : s.environments = e :: outer) (hl : e.role = .list l) (c : Cursor)
    (item : OpenItem) :
    Accounts s { (s.finishItem e l).1 with
      cursor := c
      environments := { e with
        role := .list { l with items := (s.finishItem e l).2, item }
        blocks := [] } :: outer } := by
  obtain ⟨added, hlists, hreported, htally⟩ := exists_finishItem_tally (s := s) (e := e) h
  obtain ⟨ds, heq, -⟩ := s.exists_finishItem_eq e l
  have hblocks : (s.finishItem e l).1.blocks = s.blocks := by rw [heq]
  refine ⟨tallyOf s.blocks ++ outer.reverse.flatMap OpenEnvironment.tally
    ++ Node.tallyItems e.marker.token.start l.items.reverse, added, tallyOf e.blocks, ?_, ?_,
    hreported, .inr hlists⟩
  · rw [tally_cons he, OpenEnvironment.tally, hl]
    simp only [List.append_assoc]
  · rw [tally_cons (by rfl), OpenEnvironment.tally]
    simp only [hblocks, htally, List.append_assoc]
    simp [tallyOf]

/-- Closing an environment moves its blocks, and finishes the last item of a list. -/
theorem Accounts.closeEnvironment {e : OpenEnvironment} {outer : List OpenEnvironment}
    (h : e.Keeps genuinePieces) (he : s.environments = e :: outer) :
    Accounts s (s.closeEnvironment e outer) := by
  have hcons := tally_cons he
  have houter : ∀ (t : State), t.blocks = s.blocks → t.environments = outer →
      t.tally = tallyOf s.blocks ++ outer.reverse.flatMap OpenEnvironment.tally := by
    intro t hblocks henvironments
    rw [State.tally, hblocks, henvironments]
  simp only [State.closeEnvironment]
  split
  · next hrole =>
    rw [OpenEnvironment.tally, hrole] at hcons
    refine .of_eq ?_ (reported_addBlocks _ _)
    rw [tally_addBlocks, houter _ (by rfl) (by rfl), hcons]
    rfl
  · next hrole =>
    rw [OpenEnvironment.tally, hrole] at hcons
    refine .of_eq ?_ (reported_addBlocks _ _)
    rw [tally_addBlocks, houter _ (by rfl) (by rfl), hcons]
    rfl
  · next hrole =>
    rw [OpenEnvironment.tally, hrole] at hcons
    refine .of_eq ?_ (reported_addBlocks _ _)
    rw [tally_addBlocks, houter _ (by rfl) (by rfl), hcons, tallyOf_singleton, Node.tally_quote]
    rfl
  · next l hrole =>
    rw [OpenEnvironment.tally, hrole] at hcons
    obtain ⟨added, hlists, hreported, htally⟩ := exists_finishItem_tally (s := s) (e := e)
      (h.list l hrole)
    obtain ⟨ds, heq, -⟩ := s.exists_finishItem_eq e l
    have hblocks : (s.finishItem e l).1.blocks = s.blocks := by rw [heq]
    refine ⟨tallyOf s.blocks ++ outer.reverse.flatMap OpenEnvironment.tally
      ++ Node.tallyItems e.marker.token.start l.items.reverse, added, tallyOf e.blocks, ?_, ?_, ?_,
      .inr hlists⟩
    · rw [hcons]
      simp only [List.append_assoc]
    · rw [tally_addBlocks, houter _ (by exact hblocks) (by rfl), tallyOf_singleton, Node.tally_list]
      show _ ++ Node.tallyItems e.marker.token.start (s.finishItem e l).2.reverse = _
      rw [htally]
      simp only [List.append_assoc]
    · rw [reported_addBlocks]
      exact hreported

/-! ### Changes -/

/-- What a change adds to the tree it reports. -/
theorem accounts_of_change (h : Genuine s) (hchange : Change ctx s t) : Accounts s t := by
  cases hchange with
  | skip => exact .of_same rfl rfl rfl
  | warn cause hcause =>
    refine .of_eq rfl ?_
    rw [State.warnAt, reported_warn, Diagnostic.degraded_of_category hcause, List.append_nil]
  | addLeaf hi hb =>
    refine .addBlocks (by rfl) (by rfl) (by rfl) ?_
    rw [tallyOf_singleton, Node.tally_eq]
    cases hb <;> rfl
  | beginEnvironment hi hk hc hr =>
    refine .of_eq ?_ rfl
    rw [tally_cons (by rfl), State.tally, OpenEnvironment.tally]
    -- A list begins without items.
    split
    · next l hl =>
      rw [(hr l hl).1]
      simp [State.pushEnvironment, Node.tallyItems, tallyOf]
    · simp [State.pushEnvironment, tallyOf]
  | closeEnvironment hi hk he =>
    exact .closeEnvironment (h.environments _ (he ▸ List.mem_cons_self)) he
  | beginItem hi hk he hl =>
    exact .beginItem ((h.environments _ (he ▸ List.mem_cons_self)).list _ hl) he hl _ _
  | beginLabel | beginHeading | beginParagraph | beginTable | gather | openBrace | closeBrace
  | openArgument | closeArgument | nextCell | nextRow => exact .of_same rfl rfl rfl
  | closeParagraph => exact .closeParagraph _ _ _
  | closeHeading => exact .closeHeading _ _ _ _ _
  | closeLabel =>
    simp only [State.closeLabel]
    split
    · exact .of_same rfl rfl rfl
    · next e outer he =>
      refine .of_eq ?_ rfl
      rw [tally_cons (by rfl), tally_cons (s := s) he, OpenEnvironment.tally, OpenEnvironment.tally]
      cases e.role <;> rfl
  | closeTable => exact .closeTable _ _ _ _ _

/-! ## Runs -/

/-- All that a state has to report is reported: headings and rows in document order, lists in some
order. -/
structure Tallied (s : State) : Prop where
  genuine : Genuine s
  perm : s.tally.Perm s.reported
  inOrder : s.tally.filter (!·.isList) = s.reported.filter (!·.isList)

theorem Tallied.initial (settings : Settings) (source : Text) :
    Tallied (.initial settings source) :=
  ⟨.initial settings source, .nil, rfl⟩

/-- Every change keeps it that all is reported. -/
theorem Tallied.change (h : Tallied s) (hchange : Change ctx s t) : Tallied t := by
  obtain ⟨before, added, after, hold, hnew, hreported, hlast⟩ := accounts_of_change h.genuine hchange
  have hperm := h.perm
  have hinOrder := h.inOrder
  rw [hold] at hperm hinOrder
  refine ⟨h.genuine.change hchange, ?_, ?_⟩
  · have hswap : (before ++ (added ++ after)).Perm (before ++ (after ++ added)) :=
      List.perm_append_comm.append_left before
    rw [hnew, hreported, List.append_assoc]
    refine hswap.trans ?_
    rw [← List.append_assoc]
    exact hperm.append_right added
  · rw [hnew, hreported]
    rcases hlast with rfl | hlists
    · rw [List.append_nil] at hinOrder ⊢
      rw [List.filter_append, hinOrder, List.filter_append]
    · -- Lists are left out.
      have hadded : added.filter (!·.isList) = [] := by
        rw [List.filter_eq_nil_iff]
        intro a ha
        simp [hlists a ha]
      rw [List.filter_append, List.filter_append, hadded, List.append_nil, ← List.filter_append,
        hinOrder, List.filter_append, hadded, List.append_nil]

end Parse

/-! ## Documents -/

variable {source : Text} {options : Options} {parsed : Parsed}

/-- What a document that is read has to be reported for is what is reported. -/
theorem tallied_of_parseDocument (h : parseDocument source options = .ok parsed) :
    (∀ c ∈ (Node.document parsed.document).children, c.Genuine) ∧
      (Node.document parsed.document).tally.Perm (parsed.diagnostics.flatMap (·.degraded)) ∧
      (Node.document parsed.document).tally.filter (!·.isList)
        = (parsed.diagnostics.flatMap (·.degraded)).filter (!·.isList) := by
  obtain ⟨settings, blocks, diagnostics, -, houtcome, rfl⟩ := exists_of_parseDocument_ok h
  have hyields := Parse.yields_outcomeOf (fun _ _ => Parse.Tallied.change)
    (Parse.Tallied.initial settings source)
  rw [houtcome] at hyields
  obtain ⟨t, ht, -, henvironments, heq⟩ := hyields
  obtain ⟨rfl, rfl⟩ := Prod.mk.inj heq
  have htally : ∀ d : Document, d.children = t.blocks.reverse →
      (Node.document d).tally = t.tally := by
    intro d hd
    rw [Node.tally_eq, Node.children, hd, List.flatMap_map, Parse.State.tally, henvironments]
    simp [Node.degraded, Node.isClamped, Node.beginsMadeUp, Node.raggedRows, Parse.tallyOf]
  refine ⟨fun c hc => ?_, ?_, ?_⟩
  · obtain ⟨b, hb, rfl⟩ := List.mem_map.mp hc
    exact ht.genuine.blocks b (List.mem_reverse.mp hb)
  · rw [htally _ rfl]
    exact ht.perm
  · rw [htally _ rfl]
    exact ht.inOrder

/-- What is no list is found as well when lists are left out. -/
theorem filterMap_filter_isList {α : Type} {f : Degraded → Option α}
    (hf : ∀ a : Degraded, a.isList = true → f a = none) (l : List Degraded) :
    (l.filter (!·.isList)).filterMap f = l.filterMap f := by
  rw [List.filterMap_filter]
  refine congrArg (List.filterMap · l) (funext fun a => ?_)
  cases ha : a.isList with
  | false => rfl
  | true => rw [hf a ha]; rfl

/-- In a document that is read, headings whose level was moved and rows that lack cells are reported
in document order, and lists with an item that is made up are reported in some order.  Nothing else is
reported as such, and nothing else is made up. -/
theorem degradations_of_parseDocument (h : parseDocument source options = .ok parsed) :
    let nodes := (Node.document parsed.document).tree.preorder
    let reports := fun code : String => parsed.diagnostics.filter (·.cause.code == code)
    (nodes.filter Node.isClamped).map Node.start
        = (reports "heading-level-clamped").map Diagnostic.start ∧
      ((nodes.filter Node.beginsMadeUp).map Node.start).Perm
        ((reports "implicit-list-item").map Diagnostic.start) ∧
      ((Node.document parsed.document).isMadeUp = false ∧ ∀ n ∈ nodes, n.MadeUpFirst) ∧
      (nodes.flatMap Node.raggedRows).map (fun r => (r.info.start, r.info.stop))
        = (reports "ragged-table-row").map fun d => (d.start, d.stop) := by
  intro nodes reports
  obtain ⟨hgenuine, hperm, hinOrder⟩ := tallied_of_parseDocument h
  obtain ⟨settings, blocks, diagnostics, -, -, hparsed⟩ := exists_of_parseDocument_ok h
  have hgiven : (Node.document parsed.document).isMadeUp = false := by rw [hparsed]; rfl
  refine ⟨?_, ?_, ⟨hgiven, ?_⟩, ?_⟩
  · have hheadings := congrArg (List.filterMap Degraded.heading?) hinOrder
    rw [filterMap_filter_isList, filterMap_filter_isList, Node.tally, Node.headings_degraded,
      Diagnostic.headings_degraded] at hheadings
    · exact hheadings
    all_goals
      intro a ha
      cases a <;> first | rfl | cases ha
  · have hlists := hperm.filterMap Degraded.list?
    rwa [Node.tally, Node.lists_degraded, Diagnostic.lists_degraded] at hlists
  · exact Node.Genuine.below_of_children (fun c hc => (hgenuine c hc).given)
      fun c hc => (hgenuine c hc).below
  · have hrows := congrArg (List.filterMap Degraded.row?) hinOrder
    rw [filterMap_filter_isList, filterMap_filter_isList, Node.tally, Node.rows_degraded,
      Diagnostic.rows_degraded] at hrows
    · exact hrows
    all_goals
      intro a ha
      cases a <;> first | rfl | cases ha

/-- A list in the content before the first item of a list, both with an item that is made up, a heading
that is moved from the fourth level, and a table with a row that lacks a cell. -/
theorem degradations_of_parseDocument_sample :
    let source : Text := "\\begin\x7bitemize\x7da\\begin\x7benumerate\x7db\\end\x7benumerate\x7d"
      ++ "\\item c\\end\x7bitemize\x7d\\subsubsection\x7bd\x7d"
      ++ "\\begin\x7btabular\x7d\x7bcc\x7de\\\\f&g\\end\x7btabular\x7d"
    let options : Options := { headingLevelOffset := some (.number (.ofNat 1)) }
    ∃ parsed, parseDocument source options = .ok parsed ∧
      parsed.diagnostics.map (fun d => (d.cause.code, d.start))
        = [("implicit-list-item", 16), ("implicit-list-item", 0), ("heading-level-clamped", 69),
            ("ragged-table-row", 105)] ∧
      let nodes := (Node.document parsed.document).tree.preorder
      let reports := fun code : String => parsed.diagnostics.filter (·.cause.code == code)
      (nodes.filter Node.isClamped).map Node.start
          = (reports "heading-level-clamped").map Diagnostic.start ∧
        ((nodes.filter Node.beginsMadeUp).map Node.start).Perm
          ((reports "implicit-list-item").map Diagnostic.start) ∧
        ((Node.document parsed.document).isMadeUp = false ∧ ∀ n ∈ nodes, n.MadeUpFirst) ∧
        (nodes.flatMap Node.raggedRows).map (fun r => (r.info.start, r.info.stop))
          = (reports "ragged-table-row").map fun d => (d.start, d.stop) := by
  intro source options
  have hread : (Document.parse { headingLevelOffset := 1 } source).map (fun p =>
      p.diagnostics.map (fun d => (d.cause.code, d.start)))
        = .ok [("implicit-list-item", 16), ("implicit-list-item", 0), ("heading-level-clamped", 69),
            ("ragged-table-row", 105)] := by
    decide +kernel
  have hresolve : options.resolve = .ok { headingLevelOffset := 1 } := by rfl
  obtain ⟨parsed, h, hreports⟩ := exists_of_parse_map hresolve hread
  exact ⟨parsed, h, hreports, degradations_of_parseDocument h⟩

end LatexMarkdown
