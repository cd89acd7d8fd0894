import LatexMarkdown.Proofs.NormalForm
import Mathlib.Data.List.Chain
/-!
  What normalizing keeps of inline content.

  The pieces of content are the units of its texts that are no space, and its other nodes, in the order
  in which they stand.  Merging and tidying texts change space alone, so of the pieces nothing is lost
  but forced breaks, and those just at the two ends (`flatMap_pieces_normalize`).  A break is at an end
  of the pieces when nothing but breaks and texts of space stand on one side of it.

  `NormalFormOf` says what the normal form of content is, without the function that makes it.
  Main statement: `normalFormOf_normalize`.
-/
namespace LatexMarkdown

namespace Text

/-- The units of a text that are no space. -/
def solid (t : Text) : Text := t.filter (!·.isInlineSpace)

theorem solid_append (s t : Text) : (s ++ t).solid = s.solid ++ t.solid := List.filter_append ..

theorem solid_eq_nil_iff {t : Text} : t.solid = [] ↔ t.all CodeUnit.isInlineSpace = true := by
  simp [solid]

theorem solid_collapseFrom (before : Bool) (t : Text) :
    (t.collapseFrom CodeUnit.isInlineSpace before).solid = t.solid := by
  have hspace : CodeUnit.isInlineSpace 0x20 = true := by decide
  simp only [solid]
  induction t generalizing before with
  | nil => rfl
  | cons u rest ih =>
    rw [collapseFrom]
    cases hu : u.isInlineSpace with
    | true => cases before <;> simp [hu, hspace, ih]
    | false => simp [hu, ih]

theorem solid_ne_nil_of_startsInSpace {t : Text} (hne : t ≠ []) (h : t.startsInSpace = false) :
    t.solid ≠ [] := by
  obtain ⟨u, rest, rfl⟩ := List.exists_cons_of_ne_nil hne
  have hu : u.isInlineSpace = false := by simpa [startsInSpace] using h
  simp [solid, hu]

theorem solid_ne_nil_of_endsInSpace {t : Text} (hne : t ≠ []) (h : t.endsInSpace = false) :
    t.solid ≠ [] := by
  obtain ⟨front, u, rfl⟩ := (List.eq_nil_or_concat t).resolve_left hne
  have hu : u.isInlineSpace = false := by simpa [endsInSpace] using h
  simp [solid, hu]

end Text

namespace Inline

variable {P : Type} {n : Inline P} {ns : List (Inline P)} {atEdge : Bool}

/-! ## Pieces -/

/-- A unit of text that is no space, or a node that is no text. -/
abbrev Piece (P : Type) := CodeUnit ⊕ Inline P

/-- Is the piece a forced break? -/
def isBreakPiece (p : Piece P) : Bool := p.elim (fun _ => false) isHardBreak

/-- The units of a text that are no space; other nodes have none. -/
def solid : Inline P → Text
  | text _ t => t.solid
  | _ => []

/-- What a node gives to content besides space. -/
def pieces : Inline P → List (Piece P)
  | text _ t => t.solid.map .inl
  | n => [.inr n]

/-- A forced break, or a text of nothing but space. -/
def isVoid : Inline P → Bool
  | text _ t => t.all CodeUnit.isInlineSpace
  | n => n.isHardBreak

/-- Is the node at index `k` of the content a forced break with nothing before it, or nothing behind
it, but forced breaks and texts of space? -/
def isOuterBreak (ns : List (Inline P)) (n : Inline P) (k : Nat) : Bool :=
  n.isHardBreak && ((ns.take k).all isVoid || (ns.drop (k + 1)).all isVoid)

/-- The content without its outer breaks. -/
def withoutOuterBreaks (ns : List (Inline P)) : List (Inline P) :=
  (ns.zipIdx.filter fun p => !isOuterBreak ns p.1 p.2).map Prod.fst

theorem pieces_of_isText (h : n.isText = false) : n.pieces = [.inr n] := by
  cases n with
  | text i t => cases h
  | _ => rfl

theorem isBreakPiece_of_mem_pieces (h : n.isHardBreak = false) {p : Piece P} (hp : p ∈ n.pieces) :
    isBreakPiece p = false := by
  cases n with
  | text i t =>
    obtain ⟨u, -, rfl⟩ := List.mem_map.mp hp
    rfl
  | hardBreak i => cases h
  | _ =>
    rw [List.mem_singleton.mp hp]
    rfl

/-- All that a node gives is breaks just when it is void. -/
theorem all_pieces (n : Inline P) : n.pieces.all isBreakPiece = n.isVoid := by
  cases n with
  | text i t =>
    rw [isVoid, Bool.eq_iff_iff, ← Text.solid_eq_nil_iff, pieces]
    cases t.solid with
    | nil => simp
    | cons u rest => simp [isBreakPiece]
  | _ => simp [pieces, isBreakPiece, isVoid, isHardBreak]

theorem all_flatMap_pieces (ns : List (Inline P)) :
    (ns.flatMap pieces).all isBreakPiece = ns.all isVoid := by
  rw [List.all_flatMap]
  exact congrArg ns.all (funext all_pieces)

/-! ### The other nodes and the units among pieces -/

theorem filterMap_getRight?_pieces (ns : List (Inline P)) :
    (ns.flatMap pieces).filterMap Sum.getRight? = ns.filter (!·.isText) := by
  induction ns with
  | nil => rfl
  | cons n rest ih =>
    rw [List.flatMap_cons, List.filterMap_append, ih]
    cases n with
    | text i t => simp [pieces, isText, Function.comp_def]
    | _ => simp [pieces, isText]

theorem filterMap_getLeft?_pieces (ns : List (Inline P)) :
    (ns.flatMap pieces).filterMap Sum.getLeft? = ns.flatMap solid := by
  induction ns with
  | nil => rfl
  | cons n rest ih =>
    rw [List.flatMap_cons, List.filterMap_append, ih, List.flatMap_cons]
    cases n with
    | text i t => simp [pieces, solid, Function.comp_def]
    | _ => simp [pieces, solid]

theorem filterMap_getLeft?_dropWhile (ps : List (Piece P)) :
    (ps.dropWhile isBreakPiece).filterMap Sum.getLeft? = ps.filterMap Sum.getLeft? := by
  induction ps with
  | nil => rfl
  | cons p rest ih =>
    rw [List.dropWhile_cons]
    split
    · next hb =>
      cases p with
      | inl u => cases hb
      | inr n => exact ih
    · rfl

theorem filterMap_getLeft?_rdropWhile (ps : List (Piece P)) :
    (ps.rdropWhile isBreakPiece).filterMap Sum.getLeft? = ps.filterMap Sum.getLeft? := by
  rw [List.rdropWhile, List.filterMap_reverse, filterMap_getLeft?_dropWhile, List.filterMap_reverse,
    List.reverse_reverse]

/-! ## Merging and tidying keep the pieces -/

theorem solid_dropBackSpace (t : Text) : (dropBackSpace t).solid = t.solid := by
  unfold dropBackSpace
  split
  · next h =>
    obtain ⟨front, rfl⟩ := List.getLast?_eq_some_iff.mp h
    have hspace : Text.solid [0x20] = [] := rfl
    rw [List.dropLast_concat, Text.solid_append, hspace, List.append_nil]
  · rfl

theorem solid_tidyText (atEdge back : Bool) (t : Text) :
    (tidyText atEdge back t).solid = t.solid := by
  rw [tidyText_eq]
  cases back with
  | false => exact Text.solid_collapseFrom atEdge t
  | true => exact (solid_dropBackSpace _).trans (Text.solid_collapseFrom atEdge t)

theorem flatMap_pieces_mergeTexts (ns : List (Inline P)) :
    (mergeTexts ns).flatMap pieces = ns.flatMap pieces := by
  induction ns with
  | nil => rfl
  | cons n rest ih =>
    rw [List.flatMap_cons, ← ih]
    show (mergeInto n (mergeTexts rest)).flatMap pieces = _
    unfold mergeInto
    split
    · next heq => simp [heq, joinTexts, pieces, Text.solid_append]
    · rw [List.flatMap_cons]

theorem flatMap_pieces_tidied (atEdge : Bool) (ns : List (Inline P)) :
    (tidied atEdge ns).flatMap pieces = ns.flatMap pieces := by
  induction ns generalizing atEdge with
  | nil => rfl
  | cons n rest ih =>
    by_cases ht : n.isText = true
    · cases n with
      | text i t =>
        have hsolid := solid_tidyText atEdge (edgeFirst rest) t
        rw [tidied_text, List.flatMap_append, ih, List.flatMap_cons, pieces, ← hsolid]
        -- A text that is left out had nothing but space.
        split
        · next hnil => rw [hnil]; rfl
        · rw [List.flatMap_singleton, pieces]
      | _ => cases ht
    · rw [tidied_cons_of_isText (by simpa using ht), List.flatMap_cons, List.flatMap_cons, ih]

/-! ## Breaks at the ends of the pieces -/

theorem dropWhile_pieces_append (hb : n.isHardBreak = false) (hne : n.pieces ≠ [])
    (ps : List (Piece P)) : (n.pieces ++ ps).dropWhile isBreakPiece = n.pieces ++ ps := by
  obtain ⟨p, more, heq⟩ := List.exists_cons_of_ne_nil hne
  have hp := isBreakPiece_of_mem_pieces hb (heq ▸ List.mem_cons_self : p ∈ n.pieces)
  rw [heq, List.cons_append, List.dropWhile_cons, if_neg (by simp [hp])]

theorem rdropWhile_append_pieces (hb : n.isHardBreak = false) (hne : n.pieces ≠ [])
    (ps : List (Piece P)) : (ps ++ n.pieces).rdropWhile isBreakPiece = ps ++ n.pieces := by
  rw [List.rdropWhile_eq_self_iff]
  intro hne'
  rw [List.getLast_append_of_ne_nil hne' hne]
  simp [isBreakPiece_of_mem_pieces hb (List.getLast_mem hne)]

/-- Dropping at the back stops in the second list, unless all of it goes. -/
theorem rdropWhile_isBreakPiece_append (ps qs : List (Piece P)) :
    (ps ++ qs).rdropWhile isBreakPiece
      = if qs.all isBreakPiece then ps.rdropWhile isBreakPiece
        else ps ++ qs.rdropWhile isBreakPiece := by
  rw [List.rdropWhile, List.reverse_append, List.dropWhile_append, List.rdropWhile, List.rdropWhile]
  have hall : (qs.reverse.dropWhile isBreakPiece).isEmpty = qs.all isBreakPiece := by
    rw [Bool.eq_iff_iff, List.isEmpty_iff, List.dropWhile_eq_nil_iff, List.all_eq_true]
    simp
  rw [hall]
  split
  · rfl
  · rw [List.reverse_append, List.reverse_reverse]

theorem rdropWhile_of_all {ps : List (Piece P)} (h : ps.all isBreakPiece = true) :
    ps.rdropWhile isBreakPiece = [] :=
  List.rdropWhile_eq_nil_iff.mpr (List.all_eq_true.mp h)

/-- What any other node than a break gives stays, whatever goes behind it. -/
theorem rdropWhile_pieces_append (hb : n.isHardBreak = false) (ps : List (Piece P)) :
    (n.pieces ++ ps).rdropWhile isBreakPiece = n.pieces ++ ps.rdropWhile isBreakPiece := by
  rw [rdropWhile_isBreakPiece_append]
  split
  · next hall =>
    rw [rdropWhile_of_all hall, List.append_nil]
    by_cases hne : n.pieces = []
    · rw [hne]
      rfl
    · exact rdropWhile_append_pieces hb hne []
  · rfl

/-- In tidy content a text at the front has more to it than space. -/
theorem Tidy.pieces_head_ne_nil {rest : List (Inline P)} (h : Tidy true (n :: rest)) :
    n.pieces ≠ [] := by
  cases n with
  | text i t =>
    obtain ⟨⟨-, hne, -, hstart, -⟩, -⟩ := h
    simpa [pieces] using Text.solid_ne_nil_of_startsInSpace hne (hstart rfl)
  | _ => exact List.cons_ne_nil _ _

/-- In tidy content a text at the back has more to it than space. -/
theorem Tidy.pieces_last_ne_nil (h : Tidy atEdge (ns ++ [n])) : n.pieces ≠ [] := by
  cases n with
  | text i t =>
    obtain ⟨hne, hend⟩ := h.last_text
    simpa [pieces] using Text.solid_ne_nil_of_endsInSpace hne hend
  | _ => exact List.cons_ne_nil _ _

theorem Tidy.flatMap_pieces_dropWhile (h : Tidy true ns) :
    (ns.dropWhile isHardBreak).flatMap pieces = (ns.flatMap pieces).dropWhile isBreakPiece := by
  induction ns with
  | nil => rfl
  | cons n rest ih =>
    rw [List.dropWhile_cons]
    split
    · next hb =>
      have ht := isText_of_isHardBreak hb
      have hrest : Tidy true rest := hb ▸ (tidy_cons_of_isText ht).mp h
      rw [ih hrest, List.flatMap_cons, pieces_of_isText ht, List.singleton_append,
        List.dropWhile_cons, if_pos]
      exact hb
    · next hb =>
      rw [List.flatMap_cons, dropWhile_pieces_append (by simpa using hb) h.pieces_head_ne_nil]

theorem Tidy.flatMap_pieces_rdropWhile (h : Tidy atEdge ns) :
    (ns.rdropWhile isHardBreak).flatMap pieces = (ns.flatMap pieces).rdropWhile isBreakPiece := by
  induction ns using List.reverseRecOn with
  | nil => rfl
  | append_singleton init n ih =>
    rw [List.flatMap_append, List.flatMap_singleton]
    by_cases hb : n.isHardBreak = true
    · rw [List.rdropWhile_concat_pos _ _ _ hb, ih (h.of_concat hb),
        pieces_of_isText (isText_of_isHardBreak hb), List.rdropWhile_concat_pos]
      exact hb
    · rw [List.rdropWhile_concat_neg _ _ _ hb, List.flatMap_append, List.flatMap_singleton,
        rdropWhile_append_pieces (by simpa using hb) h.pieces_last_ne_nil]

/-- Of the pieces of content its normal form loses the breaks at both ends, and nothing else. -/
theorem flatMap_pieces_normalize (ns : List (Inline P)) :
    (normalize ns).flatMap pieces
      = ((ns.flatMap pieces).dropWhile isBreakPiece).rdropWhile isBreakPiece := by
  have htidy : Tidy true (tidied true (mergeTexts ns)) :=
    (tidy_tidied (separate_mergeTexts ns) true).1
  calc (normalize ns).flatMap pieces
      = (((tidied true (mergeTexts ns)).dropWhile isHardBreak).rdropWhile isHardBreak).flatMap
          pieces := rfl
    _ = (((tidied true (mergeTexts ns)).flatMap pieces).dropWhile isBreakPiece).rdropWhile
          isBreakPiece := by
        rw [htidy.dropWhile.flatMap_pieces_rdropWhile, htidy.flatMap_pieces_dropWhile]
    _ = ((ns.flatMap pieces).dropWhile isBreakPiece).rdropWhile isBreakPiece := by
        rw [flatMap_pieces_tidied, flatMap_pieces_mergeTexts]

/-! ## Outer breaks -/

/-- Pieces without the breaks at their end, and without those in front where nothing comes before. -/
def trimmedPieces (atFront : Bool) (ps : List (Piece P)) : List (Piece P) :=
  (if atFront then ps.dropWhile isBreakPiece else ps).rdropWhile isBreakPiece

/-- A break goes when nothing comes before it or nothing behind it. -/
theorem trimmedPieces_hardBreak (hb : n.isHardBreak = true) (atFront : Bool) (ps : List (Piece P)) :
    trimmedPieces atFront (n.pieces ++ ps)
      = (if atFront || ps.all isBreakPiece then [] else n.pieces) ++ trimmedPieces atFront ps := by
  have hpiece : isBreakPiece (.inr n) = true := hb
  rw [pieces_of_isText (isText_of_isHardBreak hb)]
  cases atFront with
  | true => simp [trimmedPieces, hpiece]
  | false =>
    simp only [trimmedPieces, Bool.false_or, if_neg Bool.false_ne_true]
    rw [rdropWhile_isBreakPiece_append]
    split
    · next hall =>
      rw [rdropWhile_of_all hall]
      exact rdropWhile_of_all (by simp [hpiece])
    · rfl

/-- What any other node gives stays, and if it gives something, that comes before the rest. -/
theorem trimmedPieces_append (hb : n.isHardBreak = false) (atFront : Bool) (ps : List (Piece P)) :
    trimmedPieces atFront (n.pieces ++ ps)
      = n.pieces ++ trimmedPieces (atFront && n.isVoid) ps := by
  cases atFront with
  | false => exact rdropWhile_pieces_append hb ps
  | true =>
    rw [Bool.true_and, ← all_pieces]
    by_cases hne : n.pieces = []
    · rw [hne]
      rfl
    · obtain ⟨p, more, heq⟩ := List.exists_cons_of_ne_nil hne
      have hp := isBreakPiece_of_mem_pieces hb (heq ▸ List.mem_cons_self : p ∈ n.pieces)
      have hshown : n.pieces.all isBreakPiece = false := by
        rw [heq, List.all_cons, hp, Bool.false_and]
      rw [hshown, trimmedPieces, if_pos rfl, dropWhile_pieces_append hb hne]
      exact rdropWhile_pieces_append hb ps

/-- The pieces of content behind `before`, once the outer breaks of the whole are left out. -/
theorem flatMap_pieces_filter (before ns : List (Inline P)) :
    (((ns.zipIdx before.length).filter fun p => !isOuterBreak (before ++ ns) p.1 p.2).map
        Prod.fst).flatMap pieces
      = trimmedPieces (before.all isVoid) (ns.flatMap pieces) := by
  induction ns generalizing before with
  | nil => cases h : before.all isVoid <;> rfl
  | cons n rest ih =>
    have ih := ih (before ++ [n])
    rw [List.length_append, List.length_singleton, List.append_assoc, List.singleton_append,
      List.all_append, List.all_cons, List.all_nil, Bool.and_true] at ih
    have houter : isOuterBreak (before ++ n :: rest) n before.length
        = (n.isHardBreak && (before.all isVoid || rest.all isVoid)) := by
      simp [isOuterBreak]
    rw [List.zipIdx_cons, List.filter_cons, houter, List.flatMap_cons]
    by_cases hb : n.isHardBreak = true
    · have hvoid : n.isVoid = true := by
        cases n with
        | hardBreak i => rfl
        | _ => cases hb
      rw [hvoid, Bool.and_true] at ih
      rw [trimmedPieces_hardBreak hb, all_flatMap_pieces, hb, Bool.true_and, ← ih]
      cases before.all isVoid || rest.all isVoid <;> rfl
    · have hb : n.isHardBreak = false := by simpa using hb
      rw [trimmedPieces_append hb, hb, Bool.false_and, ← ih]
      rfl

/-- Without its outer breaks, content has the pieces of its normal form. -/
theorem flatMap_pieces_withoutOuterBreaks (ns : List (Inline P)) :
    (withoutOuterBreaks ns).flatMap pieces = (normalize ns).flatMap pieces :=
  (flatMap_pieces_filter [] ns).trans (flatMap_pieces_normalize ns).symm

/-! ## The normal form of content -/

/-- The normal form `r` of the content `ns`. -/
structure NormalFormOf (ns r : List (Inline P)) : Prop where
  /-- No two texts stand side by side. -/
  apart : r.IsChain fun m n => ¬ (m.isText = true ∧ n.isText = true)
  /-- No text is empty, and all space in it is single spaces. -/
  texts : ∀ i t, .text i t ∈ r →
    t ≠ [] ∧ (∀ u ∈ t, u.isInlineSpace = true → u = 0x20) ∧ ¬ [0x20, 0x20] <:+: t
  /-- No text has space where it meets an end of the content or a forced break. -/
  edges : ∀ before i t after, r = before ++ .text i t :: after →
    ((∀ n ∈ before.getLast?, n.isHardBreak = true) → t.head? ≠ some 0x20) ∧
      ((∀ n ∈ after.head?, n.isHardBreak = true) → t.getLast? ≠ some 0x20)
  /-- No forced break is first or last. -/
  ends : (∀ n ∈ r.head?, n.isHardBreak = false) ∧ ∀ n ∈ r.getLast?, n.isHardBreak = false
  /-- Every other node stays, outer breaks apart. -/
  others : r.filter (!·.isText) = (withoutOuterBreaks ns).filter (!·.isText)
  /-- Every unit that is no space stays. -/
  units : r.flatMap solid = ns.flatMap solid
  /-- Units and nodes stay in the order in which they stand together. -/
  pieces : r.flatMap pieces = (withoutOuterBreaks ns).flatMap pieces

theorem Tidy.tail {rest : List (Inline P)} (h : Tidy atEdge (n :: rest)) :
    Tidy n.isHardBreak rest := by
  cases n with
  | text i t => exact h.2
  | _ => exact h

/-- A text in tidy content, between what comes before it and behind it. -/
theorem Tidy.text_between {before after : List (Inline P)} {i : NodeInfo P} {t : Text}
    (h : Tidy atEdge (before ++ .text i t :: after)) :
    t ≠ [] ∧ t.collapsed = t ∧
      (before.getLast?.elim atEdge isHardBreak = true → t.startsInSpace = false) ∧
      (edgeFirst after = true → t.endsInSpace = false) := by
  induction before generalizing atEdge with
  | nil =>
    obtain ⟨⟨-, hne, hcollapsed, hstart, hend⟩, -⟩ := h
    exact ⟨hne, hcollapsed, hstart, hend⟩
  | cons m rest ih =>
    obtain ⟨hne, hcollapsed, hstart, hend⟩ := ih h.tail
    refine ⟨hne, hcollapsed, fun hedge => hstart ?_, hend⟩
    rw [← hedge, List.getLast?_cons]
    cases rest.getLast? <;> rfl

theorem Separate.isChain (h : Separate ns) :
    ns.IsChain fun m n => ¬ (m.isText = true ∧ n.isText = true) := by
  induction ns with
  | nil => exact .nil
  | cons n rest ih =>
    refine List.isChain_cons.mpr ⟨fun m hm => ?_, ih h.2⟩
    rintro ⟨hn, hm'⟩
    rw [h.1 hn m hm] at hm'
    cases hm'

theorem head?_ne_of_startsInSpace {t : Text} (h : t.startsInSpace = false) :
    t.head? ≠ some 0x20 := by
  intro hhead
  rw [Text.startsInSpace, hhead] at h
  exact absurd h (by decide)

theorem getLast?_ne_of_endsInSpace {t : Text} (h : t.endsInSpace = false) :
    t.getLast? ≠ some 0x20 := by
  intro hlast
  rw [Text.endsInSpace, hlast] at h
  exact absurd h (by decide)

/-- Normalizing content makes its normal form, and normalizing that changes nothing. -/
theorem normalFormOf_normalize (ns : List (Inline P)) :
    NormalFormOf ns (normalize ns) ∧ normalize (normalize ns) = normalize ns := by
  have hnormal := normal_normalize ns
  have hpieces := (flatMap_pieces_withoutOuterBreaks ns).symm
  refine ⟨⟨hnormal.separate.isChain, fun i t ht => ?_, fun before i t after heq => ?_,
    ⟨hnormal.front, hnormal.back⟩, ?_, ?_, hpieces⟩, normalize_normalize ns⟩
  · obtain ⟨before, after, heq⟩ := List.append_of_mem ht
    obtain ⟨hne, hcollapsed, -⟩ := (heq ▸ hnormal.tidy).text_between
    refine ⟨hne, fun u hu hspace => Text.eq_of_mem_collapseFrom (hcollapsed.symm ▸ hu) hspace, ?_⟩
    rw [← hcollapsed]
    exact Text.not_infix_collapseFrom rfl false t
  · obtain ⟨-, -, hstart, hend⟩ := (heq ▸ hnormal.tidy).text_between
    refine ⟨fun hbefore => head?_ne_of_startsInSpace (hstart ?_), fun hafter =>
      getLast?_ne_of_endsInSpace (hend ?_)⟩
    · cases hlast : before.getLast? with
      | none => rfl
      | some m => exact hbefore m hlast
    · cases after with
      | nil => rfl
      | cons m rest => exact hafter m rfl
  · rw [← filterMap_getRight?_pieces, hpieces, filterMap_getRight?_pieces]
  · rw [← filterMap_getLeft?_pieces, flatMap_pieces_normalize, filterMap_getLeft?_rdropWhile,
      filterMap_getLeft?_dropWhile, filterMap_getLeft?_pieces]

end Inline

end LatexMarkdown
