import LatexMarkdown.Proofs.Embedding.Content
import LatexMarkdown.Proofs.Spacing
/-!
  Space and forced breaks at the end of content.

  Content is put into normal form without them, so up to offsets it comes to the same whether they
  were gathered or not (`Fragments.finish_pushText_space`, `Fragments.finish_push_hardBreak`).
-/
namespace LatexMarkdown

namespace Text

theorem endsInSpace_dropFrontSpace {t : Text} (h : t.endsInSpace = false) :
    endsInSpace (Inline.dropFrontSpace t) = false := by
  unfold Inline.dropFrontSpace
  split
  · cases t with
    | nil => rfl
    | cons u rest =>
      rw [List.tail_cons]
      by_cases hrest : rest = []
      · rw [hrest]
        rfl
      · rwa [← endsInSpace_append hrest [u]]
  · exact h

theorem collapsed_append_space (t : Text) :
    (t ++ [0x20]).collapsed = t.collapsed ++ (if t.endsInSpace then [] else [0x20]) := by
  rw [collapsed_append, glue, endsInSpace_collapsed]
  congr 1

end Text

namespace Inline

variable {P : Type}

/-! ## Forced breaks -/

theorem mergeTexts_append_hardBreak (ns : List (Inline P)) (i : NodeInfo P) :
    mergeTexts (ns ++ [.hardBreak i]) = mergeTexts ns ++ [.hardBreak i] := by
  have hinto : ∀ (n : Inline P) (rest : List (Inline P)),
      mergeInto n (rest ++ [.hardBreak i]) = mergeInto n rest ++ [.hardBreak i] := by
    intro n rest
    cases n with
    | text j s =>
      cases rest with
      | nil => rfl
      | cons m rest => cases m <;> rfl
    | _ => rfl
  induction ns with
  | nil => rfl
  | cons n rest ih =>
    show mergeInto n (mergeTexts (rest ++ [.hardBreak i])) = _
    rw [ih, hinto]
    rfl

theorem tidyTexts_append_hardBreak (ns : List (Inline P)) (i : NodeInfo P) (atEdge : Bool) :
    tidyTexts atEdge (ns ++ [.hardBreak i]) = tidyTexts atEdge ns ++ [.hardBreak i] := by
  have hedge : ∀ rest : List (Inline P),
      edgeFirst (rest ++ [.hardBreak i]) = edgeFirst rest := by
    intro rest
    cases rest <;> rfl
  induction ns generalizing atEdge with
  | nil => rfl
  | cons n rest ih => cases n <;> simp [tidyTexts, hedge, ih]

theorem trimHardBreaks_append_hardBreak (ns : List (Inline P)) (i : NodeInfo P) :
    trimHardBreaks (ns ++ [.hardBreak i]) = trimHardBreaks ns := by
  have hbreak : (Inline.hardBreak i).isHardBreak = true := rfl
  rw [trimHardBreaks, trimHardBreaks, List.dropWhile_append]
  split
  · next hempty =>
    -- There was nothing but forced breaks before.
    rw [List.isEmpty_iff.mp hempty]
    simp [hbreak]
  · simp [hbreak]

theorem normalize_append_hardBreak (ns : List (Inline P)) (i : NodeInfo P) :
    normalize (ns ++ [.hardBreak i]) = normalize ns := by
  have hkept : ([.hardBreak i] : List (Inline P)).filter (!·.isEmptyText) = [.hardBreak i] := rfl
  rw [normalize, mergeTexts_append_hardBreak, tidyTexts_append_hardBreak, List.filter_append, hkept,
    trimHardBreaks_append_hardBreak]
  rfl

/-! ## Space -/

theorem trimEdges_append_space (atEdge : Bool) (t : Text) :
    trimEdges atEdge (t ++ [0x20]).collapsed = trimEdges atEdge t.collapsed := by
  rw [Text.collapsed_append_space]
  cases hends : t.endsInSpace with
  | true => rw [if_pos rfl, List.append_nil]
  | false =>
    rw [← Text.endsInSpace_collapsed] at hends
    have hback : ∀ s : Text, dropBackSpace (s ++ [0x20]) = s := by
      intro s
      rw [Text.dropBackSpace_append (by simp)]
      exact List.append_nil s
    by_cases hnil : t.collapsed = []
    · rw [hnil]
      cases atEdge <;> rfl
    · -- The space goes, and without it there is none at the back.
      have hfront := Text.endsInSpace_dropFrontSpace hends
      cases atEdge with
      | false =>
        show dropBackSpace (t.collapsed ++ [0x20]) = dropBackSpace t.collapsed
        rw [hback, Text.dropBackSpace_of_endsInSpace hends]
      | true =>
        show dropBackSpace (dropFrontSpace (t.collapsed ++ [0x20]))
          = dropBackSpace (dropFrontSpace t.collapsed)
        rw [Text.dropFrontSpace_append hnil, hback, Text.dropBackSpace_of_endsInSpace hfront]

/-- Merged content with one more space at the back. -/
def spaced : List (Inline Unit) → List (Inline Unit)
  | [] => [.text (.span () ()) [0x20]]
  | [.text _ t] => [.text (.span () ()) (t ++ [0x20])]
  | n :: rest => n :: spaced rest

theorem spaced_cons_cons (n m : Inline Unit) (rest : List (Inline Unit)) :
    spaced (n :: m :: rest) = n :: spaced (m :: rest) := by
  cases n <;> rfl

theorem mergeInto_spaced (n : Inline Unit) (rest : List (Inline Unit)) :
    mergeInto n (spaced rest) = spaced (mergeInto n rest) := by
  cases rest with
  | nil => cases n <;> rfl
  | cons m rest =>
    cases rest with
    | nil =>
      cases n with
      | text j s => cases m <;> simp [mergeInto, spaced, joinTexts, NodeInfo.span]
      | _ => cases m <;> rfl
    | cons k rest =>
      rw [spaced_cons_cons]
      cases n with
      | text j s =>
        cases m <;> simp [mergeInto, spaced_cons_cons]
      | _ => simp [mergeInto, spaced_cons_cons]

theorem edgeFirst_spaced (n : Inline Unit) (rest : List (Inline Unit)) :
    edgeFirst (spaced (n :: rest)) = edgeFirst (n :: rest) := by
  cases rest with
  | nil => cases n <;> rfl
  | cons m rest => rw [spaced_cons_cons]; rfl

theorem filter_tidyTexts_spaced (ns : List (Inline Unit)) (atEdge : Bool) :
    (tidyTexts atEdge (spaced ns)).filter (!·.isEmptyText)
      = (tidyTexts atEdge ns).filter (!·.isEmptyText) := by
  have hspace : ∀ atEdge : Bool,
      (tidyTexts atEdge [.text (.span () ()) [0x20]]).filter (!·.isEmptyText) = [] := by
    intro atEdge
    cases atEdge <;> rfl
  induction ns generalizing atEdge with
  | nil => exact hspace atEdge
  | cons n rest ih =>
    cases rest with
    | nil =>
      cases n with
      | text j t =>
        have htidy : ∀ (j : NodeInfo Unit) (t : Text), tidyTexts atEdge [.text j t]
            = [.text { start := j.start, stop := j.stop } (trimEdges atEdge t.collapsed)] :=
          fun _ _ => rfl
        rw [spaced, htidy, htidy, trimEdges_append_space]
      | _ =>
        -- The space stands by itself behind the last node.
        simp only [spaced, tidyTexts, List.filter_cons]
        rfl
    | cons m rest =>
      rw [spaced_cons_cons]
      cases n with
      | text j t =>
        simp only [tidyTexts, edgeFirst_spaced, List.filter_cons, ih]
      | _ => simp only [tidyTexts, List.filter_cons, ih]

end Inline

namespace Fragments

/-- Up to offsets, a forced break at the end is no part of the content. -/
theorem finish_push_hardBreak (f : Fragments) (i : NodeInfo) :
    (f.push (.hardBreak i)).finish = f.finish := by
  rw [finish, toList_push, Inline.normalize_append_hardBreak]
  rfl

/-- Up to offsets, space at the end is no part of the content. -/
theorem finish_pushText_space (f : Fragments) (start stop : Nat) :
    (f.pushText start stop [0x20]).finish.map (Inline.mapOffsets fun _ => ())
      = f.finish.map (Inline.mapOffsets fun _ => ()) := by
  have hmerge : Inline.mergeTexts ((f.pushText start stop [0x20]).toList.map
        (Inline.mapOffsets fun _ => ()))
      = Inline.spaced (Inline.mergeTexts (f.toList.map (Inline.mapOffsets fun _ => ()))) := by
    have hfold : ∀ ns ms : List (Inline Unit),
        ns.foldr Inline.mergeInto (Inline.spaced ms)
          = Inline.spaced (ns.foldr Inline.mergeInto ms) := by
      intro ns ms
      induction ns with
      | nil => rfl
      | cons n rest ih => rw [List.foldr_cons, List.foldr_cons, ih, Inline.mergeInto_spaced]
    rw [toList_eq, toList_eq, pushText, Inline.mergeTexts, Inline.mergeTexts]
    simp only [List.map_append, List.foldr_append]
    cases hp : f.pending? with
    | none => exact hfold _ []
    | some t =>
      rw [← hfold]
      congr 1
      simp [OpenText.toInline, Inline.mapOffsets, Inline.mergeInto, Inline.spaced,
        NodeInfo.mapOffsets, NodeInfo.span]
  rw [finish, finish, ← Inline.normalize_map, ← Inline.normalize_map, Inline.normalize, hmerge,
    Inline.filter_tidyTexts_spaced]
  rfl

end Fragments

end LatexMarkdown
