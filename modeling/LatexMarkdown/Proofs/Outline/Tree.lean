import LatexMarkdown.Proofs.Lexemes
import LatexMarkdown.Proofs.Spacing
/-!
  Trees of plain blocks and their source.

  A tree has paragraphs, headings, quotes and lists; its only inline content is lines of words.
  `Tree.print` writes one as a source, `Tree.toBlock` is the block that it stands for, without
  offsets.
-/
namespace LatexMarkdown.Outline

/-! ## Lines -/

/-- Letters and digits, at least one. -/
structure Word where
  text : Text
  ne_nil : text ≠ []
  isAlphanumeric : ∀ u ∈ text, (CodeUnit.isLetter u || CodeUnit.isDigit u) = true

/-- One or more words. -/
structure Line where
  first : Word
  more : List Word

/-- The words with single spaces between them. -/
def Line.text (l : Line) : Text := Text.join [0x20] ((l.first :: l.more).map Word.text)

/-! ## Trees -/

/-- The levels of headings. -/
inductive Level
  | one
  | two
  | three
  deriving DecidableEq, Repr

/-- The number of a level. -/
def Level.number : Level → Nat
  | one => 1
  | two => 2
  | three => 3

/-- The command of a level. -/
def Level.command : Level → Text
  | one => "section"
  | two => "subsection"
  | three => "subsubsection"

mutual

/-- A block. -/
inductive Tree
  | paragraph (line : Line)
  | heading (level : Level) (line : Line)
  | quote (blocks : List Tree)
  | list (ordered : Bool) (items : List Entry)

/-- A list item: its line, when it has one, and the blocks after it. -/
inductive Entry
  | mk (line? : Option Line) (blocks : List Tree)

end

/-- Is it a paragraph? -/
def Tree.isParagraph : Tree → Bool
  | paragraph _ => true
  | _ => false

mutual

/-- How many quotes and lists are nested in a block. -/
def Tree.depth : Tree → Nat
  | .paragraph _ | .heading _ _ => 0
  | .quote blocks => Tree.depthOf blocks + 1
  | .list _ items => Entry.depthOf items + 1

/-- How many quotes and lists are nested in blocks. -/
def Tree.depthOf : List Tree → Nat
  | [] => 0
  | t :: rest => max t.depth (Tree.depthOf rest)

/-- How many quotes and lists are nested in list items. -/
def Entry.depthOf : List Entry → Nat
  | [] => 0
  | ⟨_, blocks⟩ :: rest => max (Tree.depthOf blocks) (Entry.depthOf rest)

end

mutual

/-- No item without a line begins with a paragraph, which would be its line. -/
def Tree.Regular : Tree → Prop
  | .paragraph _ | .heading _ _ => True
  | .quote blocks => Tree.AllRegular blocks
  | .list _ items => Entry.AllRegular items

/-- `Tree.Regular` of every block. -/
def Tree.AllRegular : List Tree → Prop
  | [] => True
  | t :: rest => t.Regular ∧ Tree.AllRegular rest

/-- `Tree.Regular` of every block in list items, and of the items. -/
def Entry.AllRegular : List Entry → Prop
  | [] => True
  | ⟨line?, blocks⟩ :: rest =>
    (line? = none → ∀ t ∈ blocks.head?, t.isParagraph = false) ∧ Tree.AllRegular blocks ∧
      Entry.AllRegular rest

end

/-! ## Sources -/

/-- The environment of a list. -/
def listName (ordered : Bool) : Text := if ordered then "enumerate" else "itemize"

/-- A line of source. -/
def withBreak (t : Text) : Text := t ++ [0x0A]

/-- The source of a heading. -/
def printHeading (level : Level) (line : Line) : Text :=
  withBreak (0x5C :: (level.command ++ 0x7B :: (line.text ++ [0x7D])))

/-- The source of an environment. -/
def printEnvironment (name body : Text) : Text :=
  withBreak (Lexeme.spellMarker false name) ++ body ++ withBreak (Lexeme.spellMarker true name)

/-- The source of an item marker with the line of the item. -/
def printItem (line? : Option Line) : Text :=
  match line? with
  | some line => 0x5C :: (Text.ofString "item" ++ (0x20 :: (line.text ++ [0x0A, 0x0A])))
  | none => withBreak (0x5C :: "item")

mutual

/-- The source of a block. -/
def Tree.print : Tree → Text
  | .paragraph line => line.text ++ [0x0A, 0x0A]
  | .heading level line => printHeading level line
  | .quote blocks => printEnvironment "quote" (Tree.printAll blocks)
  | .list ordered items => printEnvironment (listName ordered) (Entry.printAll items)

/-- The source of blocks. -/
def Tree.printAll : List Tree → Text
  | [] => []
  | t :: rest => t.print ++ Tree.printAll rest

/-- The source of list items. -/
def Entry.printAll : List Entry → Text
  | [] => []
  | ⟨line?, blocks⟩ :: rest => printItem line? ++ Tree.printAll blocks ++ Entry.printAll rest

end

/-! ## Blocks -/

/-- A line as inline content. -/
def Line.toInlines (line : Line) : List (Inline Unit) := [.text (.span () ()) line.text]

mutual

/-- The block that a tree stands for. -/
def Tree.toBlock : Tree → Block Unit
  | .paragraph line => .paragraph (.span () ()) line.toInlines
  | .heading level line => .heading (.span () ()) (.ofNat level.number) line.toInlines
  | .quote blocks => .quote (.span () ()) (Tree.toBlocks blocks)
  | .list ordered items => .list (.span () ()) ordered (Entry.toItems items)

/-- The blocks that trees stand for. -/
def Tree.toBlocks : List Tree → List (Block Unit)
  | [] => []
  | t :: rest => t.toBlock :: Tree.toBlocks rest

/-- The items that entries stand for. -/
def Entry.toItems : List Entry → List (ListItem Unit)
  | [] => []
  | ⟨line?, blocks⟩ :: rest =>
    ⟨.span () (), (line?.map Line.toInlines).getD [], Tree.toBlocks blocks⟩ :: Entry.toItems rest

end

/-! ## The text of a line -/

theorem Word.isSourceSpace (w : Word) : ∀ u ∈ w.text, CodeUnit.isSourceSpace u = false := by
  intro u hu
  exact CodeUnit.isSourceSpace_eq_false (p := fun u => u.isLetter || u.isDigit)
    (w.isAlphanumeric u hu)

theorem Word.tight (w : Word) : w.text.Tight := by
  have hspace : ∀ u ∈ w.text, CodeUnit.isInlineSpace u = false := by
    intro u hu
    rw [← Bool.not_eq_true]
    intro h
    have hs := w.isSourceSpace u hu
    rw [CodeUnit.isSourceSpace_of_isInlineSpace h] at hs
    exact absurd hs (by decide)
  refine ⟨w.ne_nil, Text.collapsed_of_forall hspace, ?_, ?_⟩
  · obtain ⟨u, rest, heq⟩ := List.exists_cons_of_ne_nil w.ne_nil
    rw [heq] at hspace ⊢
    exact hspace u List.mem_cons_self
  · rw [Text.endsInSpace]
    cases hlast : w.text.getLast? with
    | none => rfl
    | some u => exact hspace u (List.mem_of_getLast? hlast)

theorem Line.mem_text {l : Line} {u : CodeUnit} (h : u ∈ l.text) :
    (u.isLetter || u.isDigit) = true ∨ u = 0x20 := by
  obtain ⟨first, more⟩ := l
  induction more generalizing first with
  | nil =>
    rw [Line.text, List.map_singleton, Text.join_singleton] at h
    exact .inl (first.isAlphanumeric u h)
  | cons w rest ih =>
    rw [Line.text, List.map_cons, List.map_cons, Text.join_cons_cons] at h
    rcases List.mem_append.mp h with h | h
    · exact .inl (first.isAlphanumeric u h)
    · rcases List.mem_append.mp h with h | h
      · exact .inr (List.mem_singleton.mp h)
      · exact ih w h

theorem Line.isPlain (l : Line) : ∀ u ∈ l.text, CodeUnit.isPlain u = true := by
  intro u hu
  rcases Line.mem_text hu with h | rfl
  · exact CodeUnit.isPlain_eq_true (p := fun u => u.isLetter || u.isDigit) h
  · decide

/-- Words with single spaces between them have no other space. -/
theorem Line.tight (l : Line) : l.text.Tight := by
  obtain ⟨first, more⟩ := l
  induction more generalizing first with
  | nil =>
    rw [Line.text, List.map_singleton, Text.join_singleton]
    exact first.tight
  | cons w rest ih =>
    have hfirst := first.tight
    have hrest := ih w
    rw [Line.text, List.map_cons, List.map_cons, Text.join_cons_cons, ← List.map_cons]
    change Text.Tight (first.text ++ ([0x20] ++ Line.text ⟨w, rest⟩))
    have hne : [0x20] ++ Line.text ⟨w, rest⟩ ≠ [] := by simp
    have hspace : Text.collapsed [0x20] = [0x20] := by decide
    refine ⟨by simp, ?_, ?_, ?_⟩
    · rw [Text.collapsed_append_of_or (.inl hfirst.ends),
        Text.collapsed_append_of_or (.inr hrest.starts), hspace, hfirst.collapsed_eq,
        hrest.collapsed_eq]
    · rw [Text.startsInSpace_append hfirst.ne_nil, hfirst.starts]
    · rw [Text.endsInSpace_append hne, Text.endsInSpace_append hrest.ne_nil, hrest.ends]

theorem Line.isBlank (l : Line) : l.text.isBlank = false := by
  obtain ⟨first, more⟩ := l
  have hfirst : first.text.isBlank = false := by
    obtain ⟨u, rest, heq⟩ := List.exists_cons_of_ne_nil first.ne_nil
    have hu := first.isSourceSpace u (heq ▸ List.mem_cons_self)
    rw [heq, Text.isBlank_cons, hu, Bool.false_and]
  cases more with
  | nil => rwa [Line.text, List.map_singleton, Text.join_singleton]
  | cons w rest =>
    rw [Line.text, List.map_cons, List.map_cons, Text.join_cons_cons, Text.isBlank_append, hfirst,
      Bool.false_and]

/-! ## No brackets -/

theorem Line.bracket_not_mem (l : Line) : 0x5B ∉ l.text := by
  intro hmem
  exact absurd (l.isPlain _ hmem) (by decide)

theorem bracket_not_mem_printEnvironment {name body : Text} (hname : 0x5B ∉ name)
    (hbody : 0x5B ∉ body) : 0x5B ∉ printEnvironment name body := by
  have hmarker : ∀ ends, 0x5B ∉ Lexeme.spellMarker ends name := by
    intro ends
    cases ends <;> simp [Lexeme.spellMarker, Lexeme.markerCommand, hname] <;> decide
  simp [printEnvironment, withBreak, hmarker, hbody]

theorem bracket_not_mem_printItem (line? : Option Line) : 0x5B ∉ printItem line? := by
  cases line? with
  | none => decide
  | some line =>
    have hline := line.bracket_not_mem
    have hitem : 0x5B ∉ Text.ofString "item" := by decide
    simp [printItem, hline, hitem]

mutual

theorem bracket_not_mem_print : ∀ t : Tree, 0x5B ∉ t.print
  | .paragraph line => by
    have hline := line.bracket_not_mem
    simp [Tree.print, hline]
  | .heading level line => by
    have hline := line.bracket_not_mem
    have hcommand : 0x5B ∉ level.command := by cases level <;> decide
    simp [Tree.print, printHeading, withBreak, hline, hcommand]
  | .quote ts => by
    rw [Tree.print]
    exact bracket_not_mem_printEnvironment (by decide) (bracket_not_mem_printAll ts)
  | .list ordered es => by
    rw [Tree.print]
    exact bracket_not_mem_printEnvironment (by cases ordered <;> decide)
      (bracket_not_mem_printItems es)

theorem bracket_not_mem_printAll : ∀ ts : List Tree, 0x5B ∉ Tree.printAll ts
  | [] => by simp [Tree.printAll]
  | t :: ts => by
    have ht := bracket_not_mem_print t
    have hts := bracket_not_mem_printAll ts
    simp [Tree.printAll, ht, hts]

theorem bracket_not_mem_printItems : ∀ es : List Entry, 0x5B ∉ Entry.printAll es
  | [] => by simp [Entry.printAll]
  | ⟨line?, ts⟩ :: es => by
    have hitem := bracket_not_mem_printItem line?
    have hts := bracket_not_mem_printAll ts
    have hes := bracket_not_mem_printItems es
    simp [Entry.printAll, hitem, hts, hes]

end

end LatexMarkdown.Outline
