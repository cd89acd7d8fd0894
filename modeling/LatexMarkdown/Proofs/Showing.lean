import LatexMarkdown.Proofs.Rendering
import LatexMarkdown.Proofs.Steps
import LatexMarkdown.Proofs.Steps.Keeping
/-!
  Blocks that are read show something.

  Content in normal form begins with something that shows, and a paragraph without content is
  dropped.  So every change keeps it that the finished blocks show something (`Filled.change`), and
  every block that a run comes to does (`shown_of_outcome`).
-/
namespace LatexMarkdown

open Markdown (Shown)

/-- Content in normal form begins with something that shows. -/
theorem Inline.exists_cons_normalize {P : Type} {ns : List (Inline P)} (h : normalize ns ≠ []) :
    ∃ n rest, normalize ns = n :: rest ∧ n.isHardBreak = false ∧ n.isEmptyText = false := by
  obtain ⟨n, rest, heq⟩ := List.exists_cons_of_ne_nil h
  refine ⟨n, rest, heq, ?_⟩
  rw [normalize, trimHardBreaks] at heq
  generalize hl : (tidyTexts true (mergeTexts ns)).filter (!·.isEmptyText) = l at heq
  -- What is left begins like the content without the forced breaks at the front.
  have hstart : n :: rest <+: l.dropWhile isHardBreak := by
    rw [← heq, ← List.reverse_suffix, List.reverse_reverse]
    exact List.dropWhile_suffix _
  obtain ⟨more, hmore⟩ := hstart
  rw [List.cons_append] at hmore
  have hbreak : n.isHardBreak = false := by
    have hne : l.dropWhile isHardBreak ≠ [] := by simp [← hmore]
    have hhead := List.head_dropWhile_not isHardBreak hne
    simpa [← hmore] using hhead
  have hmem : n ∈ l := by
    apply (List.dropWhile_suffix isHardBreak).subset
    rw [← hmore]
    exact List.mem_cons_self
  rw [← hl, List.mem_filter] at hmem
  exact ⟨hbreak, by simpa using hmem.2⟩

namespace Parse

variable {ctx : Context} {s next : State}

/-! ## What is finished -/

/-- All blocks that are finished show something. -/
structure Filled (s : State) : Prop where
  blocks : ∀ b ∈ s.blocks, Shown b
  environments : ∀ e ∈ s.environments, ∀ b ∈ e.blocks, Shown b

/-- What `Filled` asks of the pieces of a state. -/
def shownPieces : Pieces where
  cursor _ := True
  block := Shown
  gathered _ := True
  list _ := True
  table _ := True
  argument _ := True

theorem filled_iff : Filled s ↔ Keeping shownPieces s :=
  ⟨fun h => ⟨trivial, h.blocks, fun e he => ⟨h.environments e he, fun _ _ => trivial⟩,
      fun _ _ => ⟨fun _ _ => trivial, trivial, fun _ _ => trivial⟩⟩,
    fun h => ⟨h.blocks, fun e he => (h.environments e he).blocks⟩⟩

/-- Only a paragraph shows nothing without content, and it is dropped then. -/
theorem shownPieces_closed (ctx : Context) : shownPieces.Closed ctx where
  reaches _ _ := trivial
  leaf _ hleaf := by cases hleaf <;> exact trivial
  empty := trivial
  pushText _ _ _ _ := trivial
  pushAll _ _ _ := trivial
  paragraph _ hne _ _ := Inline.exists_cons_normalize hne
  heading _ _ _ _ := trivial
  quote _ _ _ := trivial
  newList _ _ := trivial
  label _ _ := trivial
  nextItem _ _ _ _ := trivial
  closeList _ _ _ _ _ := trivial
  newTable _ _ := trivial
  sameTable _ _ _ := trivial
  cell _ _ _ := trivial
  row _ _ := trivial
  closeTable _ _ _ _ := trivial
  argument _ _ _ _ _ := trivial
  closeArgument _ _ _ := trivial

/-- Every change keeps it that all finished blocks show something. -/
theorem Filled.change (h : Filled s) (hchange : Change ctx s next) : Filled next :=
  filled_iff.mpr ((filled_iff.mp h).change (shownPieces_closed ctx) hchange)

/-- Every block that a run comes to shows something. -/
theorem State.shown_of_outcome (hs : Filled s) (h : s.cursor.Terminated) {blocks : List Block}
    {diagnostics : List Diagnostic} (hok : s.outcome ctx h = .ok (blocks, diagnostics)) :
    ∀ b ∈ blocks, Shown b := by
  have hkeep : ∀ s t, Filled s → Change ctx s t → Filled t := fun _ _ => Filled.change
  have hyields := State.yields_outcome hkeep hs h
  rw [hok] at hyields
  obtain ⟨t, ht, -, -, heq⟩ := hyields
  rw [(Prod.mk.inj heq).1]
  exact ht.blocks

end Parse

end LatexMarkdown
