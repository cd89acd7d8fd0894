import LatexMarkdown.Conversion
import LatexMarkdown.Proofs.Rendering
/-!
  Lists without a depth.

  A list is written at the depth of list items that it stands in, and every other block of an item
  is indented after it was written.  `Compositional.render` knows of no depth: a block is written as
  if it stood alone, and what an item holds, lists included, is shifted by two spaces then.  Main
  statement: `rendering_compositional`, one level of depth is one shift of the lines that are not
  empty, and so the two ways of writing give the same text.

  What carries it over the lines of an item is that the mark on its first line shows something, so
  trimming that line at its end never reaches into the indentation.
-/
namespace LatexMarkdown

namespace Markdown

variable {P : Type}

/-- A line two spaces further in; an empty line stays empty. -/
def shiftLine (line : Text) : Text := if line = [] then [] else 0x20 :: 0x20 :: line

theorem shiftLine_of_ne {line : Text} (h : line ≠ []) : shiftLine line = 0x20 :: 0x20 :: line :=
  if_neg h

/-! ## Blocks that stand alone -/

namespace Compositional

/-- The lines of an item's own inline content: the mark on the first, two spaces before the
others. -/
def ownLines (mark : Text) : List Text → List Text
  | [] => []
  | first :: rest => Text.trimEnd (mark ++ first) :: rest.map fun line => 0x20 :: 0x20 :: line

mutual

/-- The lines of a block that stands alone. -/
def blockLines (icon : Text) : Block P → List Text
  | .paragraph _ cs => inlineLines cs
  | .heading _ level cs => [headingMark level ++ oneLine cs]
  | .quote _ bs => quoteLines icon (blocksLines icon bs)
  | .list _ ordered items => itemsLines icon ordered 0 items
  | .code _ code language => codeBlockLines code language
  | .table _ rows => tableLines rows
  | .math _ math environment => (mathBlockText math environment).splitOn 0x0A

/-- The lines of blocks, one below the other. -/
def blocksLines (icon : Text) : List (Block P) → List Text
  | [] => []
  | b :: rest => blockLines icon b ++ blocksLines icon rest

/-- The lines of list items: what an item holds is written alone and shifted. -/
def itemsLines (icon : Text) (ordered : Bool) (index : Nat) : List (ListItem P) → List Text
  | [] => []
  | ⟨_, children, blocks⟩ :: rest =>
    ownLines (itemMark ordered index) (inlineLines children)
      ++ (blocksLines icon blocks).map shiftLine
      ++ itemsLines icon ordered (index + 1) rest

end

/-- A document, its blocks written alone. -/
def render (settings : Settings) (d : Document P) : Text :=
  Text.join [0x0A] (blocksLines settings.calloutIcon d.children)

/-- Writes a document under options, its blocks alone. -/
def renderDocument (document : Document P) (options : Options := {}) :
    Except ConversionError Text :=
  withSettings options fun settings =>
    match sizeError? document.children with
    | some e => .error (.size e)
    | none => .ok (render settings document)

end Compositional

/-! ## Shifted lines -/

theorem indentation_succ (depth : Nat) :
    indentation (depth + 1) = 0x20 :: 0x20 :: indentation depth := rfl

/-- A line of an item is a line of the item one level further out, shifted. -/
theorem shiftLine_indentLine (depth : Nat) (line : Text) :
    shiftLine (indentLine depth line) = indentLine (depth + 1) line := by
  by_cases h : line = []
  · rw [indentLine, indentLine, if_pos h, if_pos h]
    rfl
  · rw [indentLine, indentLine, if_neg h, if_neg h, shiftLine_of_ne (by simp [indentation_succ]),
      indentation_succ (depth + 1)]
    rfl

/-- Trimming at the end stops at what shows, whatever is in front of it. -/
theorem trimEnd_append {t : Text} {u : CodeUnit} (hu : u ∈ t) (hspace : u.isUnicodeSpace = false)
    (front : Text) : Text.trimEnd (front ++ t) = front ++ t.trimEnd := by
  have hne : t.reverse.dropWhile CodeUnit.isUnicodeSpace ≠ [] := by
    intro hnil
    apply trimEnd_ne_nil hu hspace
    rw [Text.trimEnd, hnil]
    rfl
  rw [Text.trimEnd, Text.trimEnd, List.reverse_append, List.dropWhile_append,
    List.isEmpty_eq_false_iff.mpr hne, if_neg Bool.false_ne_true, List.reverse_append,
    List.reverse_reverse]

/-- The first line of an item shows its mark. -/
theorem trimEnd_itemMark_ne_nil (front : Text) (ordered : Bool) (index : Nat) (first : Text) :
    Text.trimEnd (front ++ itemMark ordered index ++ first) ≠ [] := by
  obtain ⟨u, hu, hspace⟩ := exists_mem_itemMark ordered index
  exact trimEnd_ne_nil (List.mem_append_left _ (List.mem_append_right _ hu)) hspace

/-- The indentation of the first line of an item is not trimmed. -/
theorem trimEnd_indentation (depth : Nat) (ordered : Bool) (index : Nat) (first : Text) :
    Text.trimEnd (indentation depth ++ itemMark ordered index ++ first)
      = indentation depth ++ Text.trimEnd (itemMark ordered index ++ first) := by
  obtain ⟨u, hu, hspace⟩ := exists_mem_itemMark ordered index
  rw [List.append_assoc]
  exact trimEnd_append (List.mem_append_left _ hu) hspace _

/-- The lines of an item's own content one level further in. -/
theorem itemLines_succ (depth : Nat) (ordered : Bool) (index : Nat) (content : List Text) :
    itemLines (depth + 1) (itemMark ordered index) content
      = (itemLines depth (itemMark ordered index) content).map shiftLine := by
  cases content with
  | nil => rfl
  | cons first rest =>
    -- Both kinds of line have the indentation in front, and it stays there.
    have hfirst : Text.trimEnd (indentation (depth + 1) ++ itemMark ordered index ++ first)
        = shiftLine (Text.trimEnd (indentation depth ++ itemMark ordered index ++ first)) := by
      rw [shiftLine_of_ne (trimEnd_itemMark_ne_nil _ _ _ _), trimEnd_indentation,
        trimEnd_indentation, indentation_succ]
      rfl
    have hrest : ∀ line : Text,
        indentation (depth + 1 + 1) ++ line = shiftLine (indentation (depth + 1) ++ line) := by
      intro line
      rw [shiftLine_of_ne (by simp [indentation_succ]), indentation_succ (depth + 1)]
      rfl
    rw [itemLines, itemLines, hfirst, List.map_cons, List.map_map]
    exact congrArg _ (List.map_congr_left fun line _ => hrest line)

theorem itemLines_zero (mark : Text) (content : List Text) :
    itemLines 0 mark content = Compositional.ownLines mark content := by
  cases content with
  | nil => rfl
  | cons first rest => rfl

/-! ## One level of depth -/

/-- The depth counts for lists only. -/
theorem blockLines_of_not_list (icon : Text) (depth depth' : Nat) {b : Block P}
    (h : ∀ i ordered items, b ≠ .list i ordered items) :
    blockLines icon depth b = blockLines icon depth' b := by
  cases b with
  | list i ordered items => exact absurd rfl (h i ordered items)
  | _ => simp only [blockLines]

/-- In a list item the lines of a block that is no list are indented. -/
theorem nestedLines_succ_cons (icon : Text) (depth : Nat) {b : Block P}
    (h : ∀ i ordered items, b ≠ .list i ordered items) {rest : List (Block P)}
    (hrest : nestedLines icon (depth + 1) rest = (nestedLines icon depth rest).map shiftLine) :
    nestedLines icon (depth + 1) (b :: rest)
      = (nestedLines icon depth (b :: rest)).map shiftLine := by
  rw [nestedLines_cons icon _ h, nestedLines_cons icon _ h, List.map_append, List.map_map, hrest,
    blockLines_of_not_list icon (depth + 1) depth h]
  congr 1
  exact List.map_congr_left fun line _ => (shiftLine_indentLine depth line).symm

mutual

/-- List items one level further in are the same lines, shifted. -/
theorem itemsLines_succ (icon : Text) (depth : Nat) (ordered : Bool) (index : Nat) :
    ∀ items : List (ListItem P),
      itemsLines icon (depth + 1) ordered index items
        = (itemsLines icon depth ordered index items).map shiftLine
  | [] => by rw [itemsLines, itemsLines, List.map_nil]
  | ⟨_, children, blocks⟩ :: rest => by
    -- An item is its own lines, then its blocks, then the other items.
    rw [itemsLines, itemsLines, List.map_append, List.map_append, itemLines_succ,
      nestedLines_succ icon depth blocks, itemsLines_succ icon depth ordered (index + 1) rest]

theorem nestedLines_succ (icon : Text) (depth : Nat) :
    ∀ bs : List (Block P),
      nestedLines icon (depth + 1) bs = (nestedLines icon depth bs).map shiftLine
  | [] => by rw [nestedLines, nestedLines, List.map_nil]
  | b :: rest => by
    have hrest := nestedLines_succ icon depth rest
    cases b with
    | list i ordered items =>
      -- A list in the item goes one level deeper in both.
      have hitems := itemsLines_succ icon (depth + 1) ordered 0 items
      rw [nestedLines, nestedLines, List.map_append, hitems, hrest]
    | _ => exact nestedLines_succ_cons icon depth (by simp) hrest

end

/-- What an item of the outermost list holds is written at the top and shifted. -/
theorem nestedLines_zero (icon : Text) (bs : List (Block P)) :
    nestedLines icon 0 bs = (blocksLines icon 0 bs).map shiftLine := by
  induction bs with
  | nil => rw [nestedLines, blocksLines, List.map_nil]
  | cons b rest ih =>
    rw [blocksLines, List.map_append, ← ih]
    cases b with
    | list i ordered items =>
      -- A list in an item is written one level deeper, which is the shift.
      rw [nestedLines, blockLines, itemsLines_succ]
    | _ => exact nestedLines_cons icon 0 (by simp) rest

/-! ## The two ways of writing -/

mutual

theorem blockLines_eq_compositional (icon : Text) : ∀ b : Block P,
    blockLines icon 0 b = Compositional.blockLines icon b
  | .paragraph _ _ | .heading _ _ _ | .code _ _ _ | .table _ _ | .math _ _ _ => by
    rw [blockLines, Compositional.blockLines]
  | .quote _ bs => by
    rw [blockLines, Compositional.blockLines, blocksLines_eq_compositional icon bs]
  | .list _ ordered items => by
    rw [blockLines, Compositional.blockLines, itemsLines_eq_compositional icon ordered 0 items]

theorem blocksLines_eq_compositional (icon : Text) : ∀ bs : List (Block P),
    blocksLines icon 0 bs = Compositional.blocksLines icon bs
  | [] => by rw [blocksLines, Compositional.blocksLines]
  | b :: rest => by
    rw [blocksLines, Compositional.blocksLines, blockLines_eq_compositional icon b,
      blocksLines_eq_compositional icon rest]

theorem itemsLines_eq_compositional (icon : Text) (ordered : Bool) (index : Nat) :
    ∀ items : List (ListItem P),
      itemsLines icon 0 ordered index items = Compositional.itemsLines icon ordered index items
  | [] => by rw [itemsLines, Compositional.itemsLines]
  | ⟨_, children, blocks⟩ :: rest => by
    rw [itemsLines, Compositional.itemsLines, itemLines_zero, nestedLines_zero,
      blocksLines_eq_compositional icon blocks,
      itemsLines_eq_compositional icon ordered (index + 1) rest]

end

/-- Writing goes by the parts of a document alone.  A list one level further in has the same lines,
two spaces before every one that is not empty; and a document is written, or refused, as where no
depth is handed down. -/
theorem rendering_compositional :
    (∀ (icon : Text) (depth : Nat) (i : NodeInfo P) (ordered : Bool) (items : List (ListItem P)),
      blockLines icon (depth + 1) (.list i ordered items)
        = (blockLines icon depth (.list i ordered items)).map shiftLine) ∧
    ∀ (document : Document P) (options : Options),
      renderDocument document options = Compositional.renderDocument document options := by
  constructor
  · intro icon depth i ordered items
    rw [blockLines, blockLines, itemsLines_succ]
  · intro document options
    have hrender : ∀ settings, render settings document = Compositional.render settings document := by
      intro settings
      rw [render, Compositional.render, blocksLines_eq_compositional]
    refine congrArg (withSettings options) (funext fun settings => ?_)
    rw [write, hrender]
    cases sizeError? document.children <;> rfl

end Markdown

end LatexMarkdown
