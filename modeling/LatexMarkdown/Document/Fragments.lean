import LatexMarkdown.Document
import LatexMarkdown.Text.Blank
/-!
  Inline content in the making.

  Content arrives piece by piece, much of it as small fragments of text.  `Fragments` gathers it,
  and `Fragments.finish` puts it into normal form: adjacent texts merged, every run of space one
  space, no space at an edge or beside a forced break, no forced break at an edge.
-/
namespace LatexMarkdown

variable {P : Type}

namespace Inline

/-! ## Normal form -/

/-- Two texts as one, from the start of the first to the stop of the second. -/
def joinTexts (first second : NodeInfo P) (s t : Text) : Inline P :=
  .text { start := first.start, stop := second.stop } (s ++ t)

/-- Puts a node in front of merged content. -/
def mergeInto (n : Inline P) (rest : List (Inline P)) : List (Inline P) :=
  match n, rest with
  | .text i s, .text j t :: rest => joinTexts i j s t :: rest
  | n, rest => n :: rest

/-- Adjacent texts merged. -/
def mergeTexts (ns : List (Inline P)) : List (Inline P) := ns.foldr mergeInto []

/-- Without one space at the front. -/
def dropFrontSpace (t : Text) : Text := if t.head? = some 0x20 then t.tail else t

/-- Without one space at the back. -/
def dropBackSpace (t : Text) : Text := if t.getLast? = some 0x20 then t.dropLast else t

/-- Is the content empty, or a forced break first in it? -/
def edgeFirst (ns : List (Inline P)) : Bool :=
  match ns with
  | [] => true
  | n :: _ => n.isHardBreak

/-- Space in merged texts collapsed, and dropped where a text meets an edge or a forced break;
`atEdge` says that it is one of these that comes right before. -/
def tidyTexts (atEdge : Bool) : List (Inline P) → List (Inline P)
  | [] => []
  | .text i t :: rest =>
    -- Collapsed text has at most one space at either end.
    let collapsed := t.collapse CodeUnit.isInlineSpace
    let front := if atEdge then dropFrontSpace collapsed else collapsed
    let trimmed := if edgeFirst rest then dropBackSpace front else front
    .text { start := i.start, stop := i.stop } trimmed :: tidyTexts false rest
  | n :: rest => n :: tidyTexts n.isHardBreak rest

/-- Is it a text without characters? -/
def isEmptyText : Inline P → Bool
  | .text _ t => t.isEmpty
  | _ => false

/-- Without the forced breaks at both ends. -/
def trimHardBreaks (ns : List (Inline P)) : List (Inline P) :=
  ((ns.dropWhile isHardBreak).reverse.dropWhile isHardBreak).reverse

/-- Inline content in normal form. -/
def normalize (ns : List (Inline P)) : List (Inline P) :=
  trimHardBreaks ((tidyTexts true (mergeTexts ns)).filter (!·.isEmptyText))

/-! Only texts are merged and tidied. -/

theorem mergeInto_of_isText {n : Inline P} (h : n.isText = false) (ns : List (Inline P)) :
    mergeInto n ns = n :: ns := by
  cases n <;> first | rfl | cases h

theorem mergeInto_cons_of_isText {m : Inline P} (h : m.isText = false) (n : Inline P)
    (ns : List (Inline P)) : mergeInto n (m :: ns) = n :: m :: ns := by
  cases n <;> cases m <;> first | rfl | cases h

theorem tidyTexts_cons_of_isText {n : Inline P} (h : n.isText = false) (atEdge : Bool)
    (ns : List (Inline P)) : tidyTexts atEdge (n :: ns) = n :: tidyTexts n.isHardBreak ns := by
  cases n <;> first | rfl | cases h

end Inline

/-- A text that is still open: its fragments, the last one first, and the span they make up. -/
structure OpenText (P : Type := Nat) where
  start : P
  stop : P
  pieces : List Text
  deriving Repr

/-- The text as a node. -/
def OpenText.toInline (t : OpenText P) : Inline P :=
  .text { start := t.start, stop := t.stop } t.pieces.reverse.flatten

/-- Inline content gathered so far: finished nodes, the last one first, and the text that is still
open. -/
structure Fragments (P : Type := Nat) where
  nodes : List (Inline P) := []
  pending? : Option (OpenText P) := none
  deriving Repr

namespace Fragments

/-- Adds a fragment of text.  A negative start does not count as a start. -/
def pushText [LT P] [DecidableLT P] [OfNat P 0] (f : Fragments P) (start stop : P) (text : Text) :
    Fragments P :=
  let t : OpenText P :=
    match f.pending? with
    | some t =>
      { start := if t.start < 0 then start else t.start, stop, pieces := text :: t.pieces }
    | none => { start, stop, pieces := [text] }
  { f with pending? := some t }

/-- Makes the open text a node. -/
def flush (f : Fragments P) : Fragments P :=
  match f.pending? with
  | some t => { nodes := t.toInline :: f.nodes }
  | none => f

/-- Adds a finished node. -/
def push (f : Fragments P) (n : Inline P) : Fragments P := { nodes := n :: f.flush.nodes }

/-- Adds finished content; the texts in it go on with the open text. -/
def pushAll [LT P] [DecidableLT P] [OfNat P 0] (f : Fragments P) (ns : List (Inline P)) :
    Fragments P :=
  ns.foldl (fun f n => match n with | .text i t => f.pushText i.start i.stop t | n => f.push n) f

/-- Everything gathered, in order. -/
def toList (f : Fragments P) : List (Inline P) := f.flush.nodes.reverse

/-- Does the content begin with space? -/
def leadingSpace (f : Fragments P) : Bool :=
  match f.toList.head? with
  | some (.text _ t) => t.head?.any CodeUnit.isInlineSpace
  | _ => false

/-- Does the content end with space? -/
def trailingSpace (f : Fragments P) : Bool :=
  match f.flush.nodes.head? with
  | some (.text _ t) => t.getLast?.any CodeUnit.isInlineSpace
  | _ => false

/-- The content in normal form. -/
def finish (f : Fragments P) : List (Inline P) := Inline.normalize f.toList

@[simp] theorem flush_of_pending_none {f : Fragments P} (h : f.pending? = none) : f.flush = f := by
  simp [flush, h]

@[simp] theorem pending_flush (f : Fragments P) : f.flush.pending? = none := by
  unfold flush
  split
  · rfl
  · assumption

/-- A second look changes nothing. -/
@[simp] theorem flush_flush (f : Fragments P) : f.flush.flush = f.flush := by simp

theorem toList_flush (f : Fragments P) : f.flush.toList = f.toList := by simp [toList]

end Fragments

end LatexMarkdown
