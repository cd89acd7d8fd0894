import LatexMarkdown.Proofs.Spans.Laid
import LatexMarkdown.Proofs.Steps
/-!
  What the nodes of a document are made of.

  An inline node is read from a token of the source on, or put around content that was gathered and
  brought into normal form; `Inline.Made` has a constructor for either, so its induction follows the
  making of a node.  `Node.Made` says the same of every other node: what its content is, or which
  tokens it is read from.  `Node.AllMade` takes this to all nodes from a node down.

  The text of a link command is no content but is taken as it is spelled.  `Text.destinations` lists
  these texts for all link commands of a source.
-/
namespace LatexMarkdown

/-! ## Trees -/

/-- The tree of a child is smaller. -/
theorem Node.sizeOf_tree_lt {P : Type} {n c : Node P} (hc : c ∈ n.children) :
    sizeOf c.tree < sizeOf n.tree := by
  have hmem : c.tree ∈ n.tree.children := by
    rw [children_tree]
    exact List.mem_map_of_mem hc
  have hlist := List.sizeOf_lt_of_mem hmem
  cases htree : n.tree with
  | node label ts =>
    rw [htree] at hlist
    simp only [Tree.children, Tree.node.sizeOf_spec] at hlist ⊢
    omega

/-- What goes down from a node to its children holds of all nodes from the node down. -/
theorem Node.forall_preorder {P : Type} {p : Node P → Prop}
    (hdown : ∀ n, p n → ∀ c ∈ n.children, p c) {n : Node P} (h : p n) :
    ∀ m ∈ n.tree.preorder, p m := by
  -- The trees of the children are smaller.
  induction hsize : sizeOf n.tree using Nat.strong_induction_on generalizing n with
  | _ size ih =>
    intro m hm
    rcases mem_preorder_tree.mp hm with rfl | ⟨c, hc, hm⟩
    · exact h
    · exact ih _ (hsize ▸ sizeOf_tree_lt hc) (hdown n h c hc) rfl m hm

/-- The blocks of a document are among its nodes. -/
theorem Document.block_mem_preorder {P : Type} {d : Document P} {b : Block P}
    (h : b ∈ d.children) : .block b ∈ (Node.document d).tree.preorder := by
  refine Node.mem_preorder_tree.mpr (.inr ⟨.block b, List.mem_map_of_mem h, ?_⟩)
  exact Node.mem_preorder_tree.mpr (.inl rfl)

/-- A block of a document is in one of the blocks at its top. -/
theorem Document.exists_block_of_mem {P : Type} {d : Document P} {b : Block P}
    (h : .block b ∈ (Node.document d).tree.preorder) :
    ∃ c ∈ d.children, .block b ∈ (Node.block c).tree.preorder := by
  rcases Node.mem_preorder_tree.mp h with heq | ⟨n, hn, hbelow⟩
  · cases heq
  · obtain ⟨c, hc, rfl⟩ := List.mem_map.mp hn
    exact ⟨c, hc, hbelow⟩

/-! ## Normal form -/

namespace Inline

variable {P : Type} {n : Inline P} {ns : List (Inline P)}

theorem mem_mergeTexts (h : n ∈ mergeTexts ns) : n.isText = true ∨ n ∈ ns := by
  induction ns with
  | nil => cases h
  | cons m rest ih =>
    have hmerge : mergeTexts (m :: rest) = mergeInto m (mergeTexts rest) := rfl
    have hrest : n ∈ mergeTexts rest → n.isText = true ∨ n ∈ m :: rest := fun h =>
      (ih h).imp_right (List.mem_cons_of_mem _)
    rw [hmerge, mergeInto.eq_def] at h
    -- Two texts that meet become one, which need not be in the list; all else stays as it is.
    split at h
    · next heq =>
      rcases List.mem_cons.mp h with rfl | h
      · exact .inl rfl
      · exact hrest (heq ▸ List.mem_cons_of_mem _ h)
    · rcases List.mem_cons.mp h with rfl | h
      · exact .inr List.mem_cons_self
      · exact hrest h

/-- A text that loses a space at an edge loses nothing else. -/
theorem subset_trimmed (front back : Bool) (t : Text) :
    (let t := if front then dropFrontSpace t else t
      if back then dropBackSpace t else t) ⊆ t := by
  have hinner : (if front then dropFrontSpace t else t) ⊆ t := by
    split
    · exact Text.dropFrontSpace_subset t
    · exact List.Subset.refl t
  simp only
  split
  · exact List.Subset.trans (Text.dropBackSpace_subset _) hinner
  · exact hinner

theorem mem_tidyTexts {atEdge : Bool} (h : n ∈ tidyTexts atEdge ns) :
    (n ∈ ns ∧ n.isText = false) ∨
      ∃ i t, n = .text i t ∧ ∀ u ∈ t, u.isInlineSpace = true → u = 0x20 := by
  induction ns generalizing atEdge with
  | nil => cases h
  | cons m rest ih =>
    have hrest : ∀ {atEdge}, n ∈ tidyTexts atEdge rest → (n ∈ m :: rest ∧ n.isText = false) ∨
        ∃ i t, n = .text i t ∧ ∀ u ∈ t, u.isInlineSpace = true → u = 0x20 := fun h =>
      (ih h).imp_left fun hmem => ⟨List.mem_cons_of_mem _ hmem.1, hmem.2⟩
    cases m with
    | text i t =>
      rcases List.mem_cons.mp h with rfl | h
      · exact .inr ⟨_, _, rfl, fun u hu => Text.eq_of_mem_collapseFrom (subset_trimmed _ _ _ hu)⟩
      · exact hrest h
    | _ =>
      rcases List.mem_cons.mp h with rfl | h
      · exact .inl ⟨List.mem_cons_self, rfl⟩
      · exact hrest h

theorem trimHardBreaks_sublist (ns : List (Inline P)) : (trimHardBreaks ns).Sublist ns := by
  rw [trimHardBreaks, ← List.reverse_sublist, List.reverse_reverse]
  exact (List.dropWhile_sublist _).trans (List.reverse_sublist.mpr (List.dropWhile_sublist _))

/-- Normal form has texts with collapsed space, and otherwise nodes that were there. -/
theorem mem_normalize (h : n ∈ normalize ns) :
    (n ∈ ns ∧ n.isText = false) ∨
      ∃ i t, n = .text i t ∧ ∀ u ∈ t, u.isInlineSpace = true → u = 0x20 := by
  -- Trimming breaks and leaving out empty texts brings no node in.
  have htidy := (List.mem_filter.mp ((trimHardBreaks_sublist _).subset h)).1
  rcases mem_tidyTexts htidy with ⟨hmem, htext⟩ | htext
  · refine .inl ⟨(mem_mergeTexts hmem).resolve_left ?_, htext⟩
    simp [htext]
  · exact .inr htext

end Inline

/-! ## Destinations -/

namespace Parse

open Cursor (Reaches)

/-- The destination of the link command at a cursor, where one is read. -/
def destination? (source : Source) (c : Cursor) : Option Text :=
  if c.current.isCommand "url" || c.current.isCommand "href" then
    match readGroup source c.marker (missingArgument c.marker) c.advance with
    | .ok (t, _) => some t.trim
    | .error _ => none
  else none

/-- What an argument is read as does not go by what it would mean to have none. -/
theorem readGroup_congr {source : Source} {owner : Marker} {flaw : Flaw} {c : Cursor}
    {r : Text × Cursor} (h : readGroup source owner flaw c = .ok r) (flaw' : Flaw) :
    readGroup source owner flaw' c = .ok r := by
  obtain ⟨opened, hstart, hread⟩ := exists_of_bind_ok h
  have hstart' : startGroup owner flaw' c = .ok opened := by
    unfold startGroup at hstart ⊢
    split at hstart
    · exact hstart
    · cases hstart
  unfold readGroup
  rw [hstart']
  exact hread

end Parse

/-- The destinations of the link commands in a source. -/
def Text.destinations (source : Text) (keepComments : Bool := false) : List Text :=
  let c := source.cursor keepComments
  (List.range (c.ahead.length + 1)).filterMap fun n =>
    Parse.destination? source.toArray (c.advanceBy n)

/-- A cursor ahead is no more steps away than there are tokens ahead. -/
theorem Cursor.Reaches.exists_le {c d : Cursor} (h : c.Reaches d) (hc : c.Terminated) :
    ∃ n ≤ c.ahead.length, d = c.advanceBy n := by
  obtain ⟨n, rfl⟩ := h
  induction n generalizing c with
  | zero => exact ⟨0, Nat.zero_le _, rfl⟩
  | succ n ih =>
    obtain ⟨m, hle, heq⟩ := ih hc.advance
    rw [advanceBy_succ, heq]
    by_cases hk : c.current.kind = .endOfFile
    · -- The end-of-file token is not passed.
      have hadvance : c.advance = c := by rw [Cursor.advance, if_pos hk]
      rw [hadvance] at hle ⊢
      exact ⟨m, hle, rfl⟩
    · exact ⟨m + 1, Nat.lt_of_le_of_lt hle (length_ahead_advance_lt hc hk), rfl⟩

theorem Text.mem_destinations {source url : Text} {keep : Bool} {c : Cursor}
    (hc : (source.cursor keep).Reaches c) (h : Parse.destination? source.toArray c = some url) :
    url ∈ source.destinations keep := by
  obtain ⟨n, hle, rfl⟩ := hc.exists_le (source.terminated_cursor keep)
  exact List.mem_filterMap.mpr ⟨n, List.mem_range.mpr (Nat.lt_succ_of_le hle), h⟩

/-! ## Inline content -/

section Content

variable {settings : Settings} {source : Text}

open Inline (normalize)

/-- Inline nodes that are made of a source. -/
inductive Inline.Made (settings : Settings) (source : Text) : Inline → Prop
  /-- Any text; normal form is what tidies it. -/
  | text (i : NodeInfo) (t : Text) : Made settings source (.text i t)
  /-- What is read from a token on. -/
  | read {c d : Cursor} {ns : List Inline} {n : Inline}
      (hc : (source.cursor settings.keepComments).Reaches c)
      (h : Parse.Reads (.of settings source) c d ns) (hn : n ∈ ns) : Made settings source n
  | strong (i : NodeInfo) {ns : List Inline} (h : ∀ n ∈ ns, Made settings source n)
      (hne : normalize ns ≠ []) : Made settings source (.strong i (normalize ns))
  | emphasis (i : NodeInfo) {ns : List Inline} (h : ∀ n ∈ ns, Made settings source n)
      (hne : normalize ns ≠ []) : Made settings source (.emphasis i (normalize ns))
  /-- The characters of content, its formatting dropped. -/
  | code (i : NodeInfo) {ns : List Inline} (h : ∀ n ∈ ns, Made settings source n)
      (hne : normalize ns ≠ []) :
      Made settings source (.code i (Inline.plainTextOf (normalize ns)))
  /-- A link with a text of its own. -/
  | link (i : NodeInfo) {url : Text} {ns : List Inline}
      (hurl : url ∈ source.destinations settings.keepComments)
      (h : ∀ n ∈ ns, Made settings source n) (hne : normalize ns ≠ []) :
      Made settings source (.link i url (normalize ns))
  /-- A link that shows its destination. -/
  | url (i : NodeInfo) {url : Text} (hurl : url ∈ source.destinations settings.keepComments) :
      Made settings source (.link i url [.text i url])

/-- Content that was gathered and brought into normal form. -/
def Inline.Finished (settings : Settings) (source : Text) (ns : List Inline) : Prop :=
  ∃ gathered : List Inline, (∀ n ∈ gathered, n.Made settings source) ∧ ns = normalize gathered

theorem Inline.finished_nil : Finished settings source [] := ⟨[], by simp, rfl⟩

/-- Normal form has nodes that are made of the source. -/
theorem Inline.Finished.made {ns : List Inline} (h : Finished settings source ns) :
    ∀ n ∈ ns, n.Made settings source := by
  obtain ⟨gathered, hmade, rfl⟩ := h
  intro n hn
  rcases mem_normalize hn with ⟨hmem, -⟩ | ⟨i, t, rfl, -⟩
  · exact hmade n hmem
  · exact .text i t

/-- Inline mathematics: a body that is not empty, on one line. -/
def Inline.IsMathSpan : Inline → Prop
  | .math _ t => t ≠ [] ∧ ∃ body : Text, t = body.trim.collapse CodeUnit.isUnicodeSpace
  | _ => False

namespace Parse

variable {c d : Cursor} {n : Inline} {ns : List Inline}

theorem isMathSpan_of_mem_mathSpan {start stop : Nat} {body : Text}
    (h : n ∈ mathSpan start stop body) : n.IsMathSpan := by
  simp only [mathSpan] at h
  split at h
  · cases h
  · next hne =>
    rw [List.mem_singleton.mp h]
    exact ⟨hne, body, rfl⟩

section MathSpans

variable {p : Inline → Prop} (hspan : ∀ start stop body, ∀ n ∈ mathSpan start stop body, p n)

include hspan

theorem forall_readDollars {source : Source} {opener : Marker} {index : Nat}
    {pieces : List Text} {l : List Token} {r : List Inline × Nat}
    (h : readDollars source opener index pieces l = .ok r) : ∀ n ∈ r.1, p n := by
  induction l generalizing opener index pieces r with
  | nil => cases h
  | cons t rest ih =>
    rw [readDollars] at h
    split at h
    · cases h
    split at h
    · cases Except.ok.inj h
      exact hspan _ _ _
    split at h
    · -- A double dollar closes one span and opens the next.
      obtain ⟨r', hrest, h⟩ := exists_of_bind_ok h
      cases Except.ok.inj h
      intro n hn
      exact (List.mem_append.mp hn).elim (hspan _ _ _ n) (ih hrest n)
    · obtain ⟨r', hrest, h⟩ := exists_of_bind_ok h
      cases Except.ok.inj h
      exact fun n hn => ih hrest n hn

/-- Inline mathematics is read as spans of it, one or more. -/
theorem forall_readInlineMath {source : Source} (h : readInlineMath source c = .ok (ns, d)) :
    ∀ n ∈ ns, p n := by
  simp only [readInlineMath] at h
  split at h
  · obtain ⟨r, hread, h⟩ := exists_of_bind_ok h
    cases Except.ok.inj h
    exact forall_readDollars hspan hread
  · obtain ⟨r, -, h⟩ := exists_of_bind_ok h
    cases Except.ok.inj h
    exact hspan _ _ _

end MathSpans

theorem isMathSpan_of_readInlineMath {source : Source} (h : readInlineMath source c = .ok (ns, d))
    (hn : n ∈ ns) : n.IsMathSpan :=
  forall_readInlineMath (fun _ _ _ _ => isMathSpan_of_mem_mathSpan) h n hn

/-- The destination of a link that is its own text. -/
theorem mem_destinations_of_url (hc : (source.cursor settings.keepComments).Reaches c)
    (hn : c.current.isCommand "url" = true) {flaw : Flaw} {t : Text}
    (h : readGroup source.toArray c.marker flaw c.advance = .ok (t, d)) :
    t.trim ∈ source.destinations settings.keepComments := by
  refine Text.mem_destinations hc ?_
  rw [destination?, hn, Bool.true_or, if_pos rfl, readGroup_congr h]

/-- The destination of a link with a text of its own. -/
theorem mem_destinations_of_href (hc : (source.cursor settings.keepComments).Reaches c)
    (hn : c.current.isCommand "href" = true) {flaw : Flaw} {t : Text}
    (h : readGroup source.toArray c.marker flaw c.advance = .ok (t, d)) :
    t.trim ∈ source.destinations settings.keepComments := by
  refine Text.mem_destinations hc ?_
  rw [destination?, hn, Bool.or_true, if_pos rfl, readGroup_congr h]

/-- Only a link that is its own text has anything below it when it is read. -/
theorem Reads.children_made {ctx : Context} (h : Reads ctx c d ns) (hn : n ∈ ns) :
    ∀ m ∈ n.children, m.Made settings source := by
  cases h with
  | dropped => cases hn
  | text | hardBreak | verbatim =>
    rw [List.mem_singleton.mp hn]
    simp [Inline.children]
  | comment =>
    rcases List.mem_cons.mp hn with rfl | hn
    · simp [Inline.children]
    · rw [List.mem_singleton.mp hn]
      simp [Inline.children]
  | url =>
    rw [List.mem_singleton.mp hn]
    intro m hm
    rw [List.mem_singleton.mp hm]
    exact .text _ _
  | math h =>
    have hmath := isMathSpan_of_readInlineMath h hn
    cases n with
    | math => simp [Inline.children]
    | _ => exact hmath.elim

end Parse

/-- What is below a node that is made of the source is made of it too. -/
theorem Inline.Made.children {n : Inline} (h : n.Made settings source) :
    ∀ m ∈ n.children, m.Made settings source := by
  -- The children of a node are the normal form of what was gathered.
  have hnormal : ∀ {ns : List Inline}, (∀ n ∈ ns, n.Made settings source) →
      ∀ m ∈ normalize ns, m.Made settings source := fun h =>
    Inline.Finished.made ⟨_, h, rfl⟩
  cases h with
  | read _ h hn => exact h.children_made hn
  | text => simp [Inline.children]
  | strong _ h | emphasis _ h | link _ _ h => exact hnormal h
  | code => simp [Inline.children]
  | url =>
    intro m hm
    rw [List.mem_singleton.mp hm]
    exact .text _ _

end Content

/-! ## Nodes -/

section Nodes

variable {settings : Settings} {source : Text} {n : Node}

/-- What a node is made of, what is below it left out. -/
def Node.Made (settings : Settings) (source : Text) : Node → Prop
  | .block (.paragraph _ cs) => Inline.Finished settings source cs ∧ cs ≠ []
  | .block (.heading _ _ cs) => Inline.Finished settings source cs
  | .block (.code i t l) => ∃ c d, (source.cursor settings.keepComments).Reaches c ∧
      Parse.Leaf (.of settings source) c d (.code i t l)
  | .block (.math i t e) => ∃ c d, (source.cursor settings.keepComments).Reaches c ∧
      Parse.Leaf (.of settings source) c d (.math i t e)
  | .listItem item => ∃ label content, Inline.Finished settings source label ∧
      Inline.Finished settings source content ∧ item.children = Parse.labelled label content
  | .tableRow r => ∃ c ∈ r.cells, c.children ≠ []
  | .tableCell c => Inline.Finished settings source c.children
  | .inline n => n.Made settings source
  | .document _ | .block (.quote _ _) | .block (.list _ _ _) | .block (.table _ _) => True

/-- All nodes from a node down are made of the source. -/
def Node.AllMade (settings : Settings) (source : Text) (n : Node) : Prop :=
  ∀ m ∈ n.tree.preorder, m.Made settings source

namespace Node.AllMade

/-- The node itself. -/
theorem made (h : n.AllMade settings source) : n.Made settings source :=
  h n (mem_preorder_tree.mpr (.inl rfl))

theorem of_children (h : n.Made settings source)
    (hc : ∀ c ∈ n.children, c.AllMade settings source) : n.AllMade settings source := by
  intro m hm
  rcases mem_preorder_tree.mp hm with rfl | ⟨c, hmem, hm⟩
  · exact h
  · exact hc c hmem m hm

theorem children (h : n.AllMade settings source) :
    ∀ c ∈ n.children, c.AllMade settings source := fun c hc m hm =>
  h m (mem_preorder_tree.mpr (.inr ⟨c, hc, hm⟩))

/-- A node further down. -/
theorem of_mem (h : n.AllMade settings source) {m : Node} (hm : m ∈ n.tree.preorder) :
    m.AllMade settings source :=
  forall_preorder (fun _ hn => hn.children) h m hm

theorem inline {n : Inline} (h : n.Made settings source) :
    (Node.inline n).AllMade settings source := by
  -- Only inline nodes are below an inline node, and all of them are made of the source.
  have hall := forall_preorder (p := fun m => ∃ k, m = .inline k ∧ k.Made settings source)
    (n := .inline n) ?_ ⟨n, rfl, h⟩
  · intro m hm
    obtain ⟨k, rfl, hk⟩ := hall m hm
    exact hk
  · rintro _ ⟨k, rfl, hk⟩ c hc
    obtain ⟨m, hm, rfl⟩ := List.mem_map.mp hc
    exact ⟨m, rfl, hk.children m hm⟩

/-- Content in normal form, as the children of a node. -/
theorem content {cs : List Inline} (h : Inline.Finished settings source cs) :
    ∀ c ∈ cs.map Node.inline, c.AllMade settings source := by
  intro c hc
  obtain ⟨m, hm, rfl⟩ := List.mem_map.mp hc
  exact .inline (h.made m hm)

end Node.AllMade

end Nodes

end LatexMarkdown
