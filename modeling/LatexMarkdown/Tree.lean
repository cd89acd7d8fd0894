/-!
  Ordered trees, their two orders, and walks that can skip and stop.

  A walk threads a state through the labels of a tree.  What is done at a label may answer that the
  walk goes on, leaves out what is below, or ends altogether.
-/
namespace LatexMarkdown

/-- A label and an ordered list of subtrees. -/
inductive Tree (α : Type)
  | node (label : α) (children : List (Tree α))

/-- How a walk goes on after a label. -/
inductive Visit
  | proceed
  | skip
  | stop
  deriving DecidableEq, Repr

namespace Tree

variable {α σ : Type}

/-- The label at the root. -/
def label : Tree α → α
  | node a _ => a

/-- The subtrees right below the root. -/
def children : Tree α → List (Tree α)
  | node _ ts => ts

/-! ## Orders -/

mutual

/-- Every label, a node before what is below it. -/
def preorder : Tree α → List α
  | node a ts => a :: preorderOf ts

/-- The labels of several trees, one tree after the other. -/
def preorderOf : List (Tree α) → List α
  | [] => []
  | t :: ts => t.preorder ++ preorderOf ts

end

mutual

/-- Every label, a node after what is below it. -/
def postorder : Tree α → List α
  | node a ts => postorderOf ts ++ [a]

/-- The labels of several trees, one tree after the other. -/
def postorderOf : List (Tree α) → List α
  | [] => []
  | t :: ts => t.postorder ++ postorderOf ts

end

/-! ## Walks

Both walks hand `visit` a label, the label right above it, and the state.  The flag they answer
says whether the walk was ended. -/

mutual

/-- From the root down: a node before what is below it. -/
def walkDown (visit : α → Option α → σ → Visit × σ) (parent : Option α) :
    Tree α → σ → Bool × σ
  | node a ts, s =>
    match visit a parent s with
    | (.stop, s) => (true, s)
    | (.skip, s) => (false, s)
    | (.proceed, s) => walkDownAll visit (some a) ts s

/-- Down each of several trees until one ends the walk. -/
def walkDownAll (visit : α → Option α → σ → Visit × σ) (parent : Option α) :
    List (Tree α) → σ → Bool × σ
  | [], s => (false, s)
  | t :: ts, s =>
    match walkDown visit parent t s with
    | (true, s) => (true, s)
    | (false, s) => walkDownAll visit parent ts s

end

mutual

/-- From the leaves up: a node after what is below it.  There is nothing left to skip then. -/
def walkUp (visit : α → Option α → σ → Visit × σ) (parent : Option α) :
    Tree α → σ → Bool × σ
  | node a ts, s =>
    match walkUpAll visit (some a) ts s with
    | (true, s) => (true, s)
    | (false, s) =>
      match visit a parent s with
      | (.stop, s) => (true, s)
      | (_, s) => (false, s)

/-- Up each of several trees until one ends the walk. -/
def walkUpAll (visit : α → Option α → σ → Visit × σ) (parent : Option α) :
    List (Tree α) → σ → Bool × σ
  | [], s => (false, s)
  | t :: ts, s =>
    match walkUp visit parent t s with
    | (true, s) => (true, s)
    | (false, s) => walkUpAll visit parent ts s

end

/-! ## Searching -/

mutual

/-- Searches for the first label that satisfies `p`, and answers whether there is one.  The labels on the
way to it stand on a stack, innermost first: every label is put there when it is met, and taken off again
when nothing was found at it or below. -/
def search (p : α → Bool) : Tree α → List α → Bool × List α
  | node a ts, stack =>
    if p a then (true, a :: stack)
    else
      match searchIn p ts (a :: stack) with
      | (true, stack) => (true, stack)
      | (false, stack) => (false, stack.tail)

/-- Searches several trees, one after the other, until one has such a label. -/
def searchIn (p : α → Bool) : List (Tree α) → List α → Bool × List α
  | [], stack => (false, stack)
  | t :: ts, stack =>
    match search p t stack with
    | (true, stack) => (true, stack)
    | (false, stack) => searchIn p ts stack

end

mutual

/-- Every label with its address: the child indices on the way from the root, the last one first. -/
def located (address : List Nat) : Tree α → Tree (List Nat × α)
  | node a ts => node (address, a) (locatedFrom address 0 ts)

/-- Trees located below a common address, the first one at child index `i`. -/
def locatedFrom (address : List Nat) (i : Nat) : List (Tree α) → List (Tree (List Nat × α))
  | [] => []
  | t :: ts => located (i :: address) t :: locatedFrom address (i + 1) ts

end

end Tree

end LatexMarkdown
