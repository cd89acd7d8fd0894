import LatexMarkdown.Proofs.Spacing
/-!
  Content does not depend on the pieces that it came in.

  `Fragments` holds back a text that is still open, and makes it a node when anything else arrives or a
  question is asked.  Normalizing merges adjacent texts once more and reads nothing else of them than
  their merged form (`Inline.merged`).  In that form what was gathered equals the plain list of all that
  came, each piece of text a node of its own, in front of whatever is still to come (`Gathers`).

  A question about the edges reads the nodes before they are merged.  Questions asked on the way cut the
  texts that they find into several nodes (`Cut`), and the text at an edge is then a part of the one that
  stood there otherwise; it answers for it unless it is empty.

  Main statement: `finish_after`.
-/
namespace LatexMarkdown

variable {P : Type}

namespace Inline

/-! ## Merged texts -/

/-- A text without its marks; any other node as it is. -/
def unmark : Inline P → Inline P
  | .text i t => .text (.span i.start i.stop) t
  | n => n

/-- Adjacent texts merged, and no text marked. -/
def merged (ns : List (Inline P)) : List (Inline P) := mergeTexts (ns.map unmark)

section Merged

variable {ms ns : List (Inline P)}

theorem merged_cons (n : Inline P) (ns : List (Inline P)) :
    merged (n :: ns) = mergeInto n.unmark (merged ns) := rfl

theorem merged_append (ms ns : List (Inline P)) :
    merged (ms ++ ns) = (ms.map unmark).foldr mergeInto (merged ns) := by
  rw [merged, mergeTexts, List.map_append, List.foldr_append]
  rfl

/-- The marks of a text do not matter. -/
theorem merged_append_text (front : List (Inline P)) (i : NodeInfo P) (t : Text) (back : List (Inline P)) :
    merged (front ++ .text i t :: back) = merged (front ++ .text (.span i.start i.stop) t :: back) := by
  rw [merged_append, merged_append]
  rfl

/-- Nor does it matter where one text ends and the next begins. -/
theorem merged_append_joinTexts (front : List (Inline P)) (i j : NodeInfo P) (s t : Text)
    (back : List (Inline P)) :
    merged (front ++ .text i s :: .text j t :: back) = merged (front ++ joinTexts i j s t :: back) := by
  rw [merged_append, merged_append, merged_cons, merged_cons, merged_cons]
  congr 1
  cases merged back with
  | nil => rfl
  | cons m rest =>
    cases m with
    | text k u =>
      -- A third text is joined to the two, whichever of them are joined first.
      show Inline.text _ (s ++ (t ++ u)) :: rest = Inline.text _ ((s ++ t) ++ u) :: rest
      rw [List.append_assoc]
      rfl
    | _ => rfl

theorem mergeInto_unmark (n : Inline P) (ns : List (Inline P)) :
    mergeInto n.unmark (ns.map unmark) = (mergeInto n ns).map unmark := by
  cases n with
  | text i s =>
    cases ns with
    | nil => rfl
    | cons m rest => cases m <;> rfl
  | _ => rfl

theorem merged_eq (ns : List (Inline P)) : merged ns = (mergeTexts ns).map unmark := by
  induction ns with
  | nil => rfl
  | cons n rest ih =>
    rw [merged_cons, ih, mergeInto_unmark]
    rfl

theorem tidyTexts_unmark (atEdge : Bool) (ns : List (Inline P)) :
    tidyTexts atEdge (ns.map unmark) = tidyTexts atEdge ns := by
  induction ns generalizing atEdge with
  | nil => rfl
  | cons n rest ih =>
    have hedge : edgeFirst (rest.map unmark) = edgeFirst rest := by
      cases rest with
      | nil => rfl
      | cons m _ => cases m <;> rfl
    cases n with
    | text i t => simp only [List.map_cons, unmark, tidyTexts, hedge, ih, NodeInfo.span]
    | _ => simp only [List.map_cons, unmark, tidyTexts, ih]

/-- Normalizing reads the merged texts only. -/
theorem normalize_congr (h : merged ms = merged ns) : normalize ms = normalize ns := by
  rw [merged_eq, merged_eq] at h
  rw [normalize, normalize, ← tidyTexts_unmark true (mergeTexts ms), h, tidyTexts_unmark]

end Merged

end Inline

namespace Fragments

open Inline (merged)

/-- A call to gather content or to ask about it. -/
inductive Call (P : Type := Nat)
  | pushText (start stop : P) (text : Text)
  | push (n : Inline P)
  | pushAll (ns : List (Inline P))
  | edgeSpace
  | finish

/-- Does a call add content? -/
def Call.adds : Call P → Bool
  | .pushText .. | .push _ | .pushAll _ => true
  | .edgeSpace | .finish => false

/-- The content that a call adds, every piece of text a node. -/
def Call.nodes : Call P → List (Inline P)
  | .pushText start stop text => [.text (.span start stop) text]
  | .push n => [n]
  | .pushAll ns => ns
  | .edgeSpace | .finish => []

theorem flatMap_nodes_filter (calls : List (Call P)) :
    (calls.filter Call.adds).flatMap Call.nodes = calls.flatMap Call.nodes := by
  induction calls with
  | nil => rfl
  | cons c rest ih =>
    cases c with
    | edgeSpace | finish => exact ih
    | _ => exact congrArg (_ ++ ·) ih

section Gathering

variable [LT P] [OfNat P 0]

/-- What was gathered stands for a list, whatever comes behind it. -/
structure Gathers (f : Fragments P) (ns : List (Inline P)) : Prop where
  alike : ∀ rest, merged (f.toList ++ rest) = merged (ns ++ rest)
  placed : ∀ t ∈ f.pending?, ¬ t.start < 0

variable {f : Fragments P} {ns : List (Inline P)}

namespace Gathers

theorem empty : Gathers ({} : Fragments P) [] := ⟨fun _ => rfl, fun _ h => nomatch h⟩

theorem flush (h : f.Gathers ns) : f.flush.Gathers ns :=
  ⟨by simpa only [toList_flush] using h.alike, by simp⟩

theorem push (h : f.Gathers ns) (n : Inline P) : (f.push n).Gathers (ns ++ [n]) where
  alike rest := by
    rw [Fragments.toList_push, List.append_assoc, List.append_assoc, h.alike]
  placed _ ht := nomatch ht

theorem finish_eq (h : f.Gathers ns) : f.finish = Inline.normalize ns :=
  Inline.normalize_congr (by simpa only [List.append_nil] using h.alike [])

variable [DecidableLT P]

/-- A piece of text goes on with the open text, or opens one. -/
theorem pushText (h : f.Gathers ns) {i : NodeInfo P} (hi : ¬ i.start < 0) (t : Text) :
    (f.pushText i.start i.stop t).Gathers (ns ++ [.text i t]) := by
  cases hopen : f.pending? with
  | none =>
    -- The piece becomes the open text; only its marks are lost.
    have hlist : (f.pushText i.start i.stop t).toList = f.toList ++ [.text (.span i.start i.stop) t] := by
      simp [toList_eq, Fragments.pushText, hopen, OpenText.toInline, NodeInfo.span]
    refine ⟨fun rest => ?_, ?_⟩
    · rw [hlist, List.append_assoc, List.append_assoc, h.alike]
      exact (Inline.merged_append_text ns i t rest).symm
    · simpa [Fragments.pushText, hopen] using hi
  | some opened =>
    -- A start that is not negative stays, so the open text becomes what joining makes of the two.
    have hstart := h.placed opened hopen
    have hold : f.toList = f.nodes.reverse ++ [opened.toInline] := by simp [toList_eq, hopen]
    have hlist : (f.pushText i.start i.stop t).toList = f.nodes.reverse ++
        [Inline.joinTexts { start := opened.start, stop := opened.stop } i
          opened.pieces.reverse.flatten t] := by
      simp [toList_eq, Fragments.pushText, hopen, OpenText.toInline, Inline.joinTexts, hstart]
    refine ⟨fun rest => ?_, ?_⟩
    · rw [hlist, List.append_assoc, List.append_assoc, ← h.alike, hold, List.append_assoc]
      exact (Inline.merged_append_joinTexts _ _ i _ t rest).symm
    · simp [Fragments.pushText, hopen, hstart]

theorem pushAll (h : f.Gathers ns) {more : List (Inline P)} (hmore : ∀ n ∈ more, ¬ n.info.start < 0) :
    (f.pushAll more).Gathers (ns ++ more) := by
  induction more generalizing f ns with
  | nil => rwa [List.append_nil]
  | cons n rest ih =>
    rw [List.forall_mem_cons] at hmore
    rw [List.append_cons]
    cases n with
    | text i t => exact ih (h.pushText hmore.1 t) hmore.2
    | _ => exact ih (h.push _) hmore.2

end Gathers

variable [DecidableLT P]

/-- The content after a call.  A question, too, makes the open text a node. -/
def call (f : Fragments P) : Call P → Fragments P
  | .pushText start stop text => f.pushText start stop text
  | .push n => f.push n
  | .pushAll ns => f.pushAll ns
  | .edgeSpace | .finish => f.flush

/-- The content after some calls. -/
def after (f : Fragments P) (calls : List (Call P)) : Fragments P := calls.foldl call f

theorem Gathers.call (h : f.Gathers ns) {c : Call P} (hc : ∀ n ∈ c.nodes, ¬ n.info.start < 0) :
    (f.call c).Gathers (ns ++ c.nodes) := by
  cases c with
  | pushText start stop text => exact h.pushText (hc _ List.mem_cons_self) text
  | push n => exact h.push n
  | pushAll more => exact h.pushAll hc
  | edgeSpace | finish =>
    rw [Call.nodes, List.append_nil]
    exact h.flush

theorem Gathers.after (h : f.Gathers ns) {calls : List (Call P)}
    (hcalls : ∀ n ∈ calls.flatMap Call.nodes, ¬ n.info.start < 0) :
    (f.after calls).Gathers (ns ++ calls.flatMap Call.nodes) := by
  induction calls generalizing f ns with
  | nil => rwa [List.flatMap_nil, List.append_nil]
  | cons c rest ih =>
    rw [List.flatMap_cons, List.forall_mem_append] at hcalls
    rw [List.flatMap_cons, ← List.append_assoc]
    exact ih (h.call hcalls.1) hcalls.2

end Gathering

/-! ## Texts cut into several -/

/-- Nodes, the last one first, and the same with some texts joined to the texts right before them. -/
inductive Cut : List (Inline P) → List (Inline P) → Prop
  | nil : Cut [] []
  | other {n : Inline P} {ms ns : List (Inline P)} (hn : n.isText = false) (h : Cut ms ns) :
      Cut (n :: ms) (n :: ns)
  | text {ms ns : List (Inline P)} (i j : NodeInfo P) (t : Text) (h : Cut ms ns) :
      Cut (.text i t :: ms) (.text j t :: ns)
  | joined {ms ns : List (Inline P)} (i j k : NodeInfo P) {s : Text} (t : Text)
      (h : Cut ms (.text j s :: ns)) : Cut (.text i t :: ms) (.text k (s ++ t) :: ns)

namespace Cut

variable {ms ns : List (Inline P)} {n : Inline P}

theorem cons (h : Cut ms ns) (n : Inline P) : Cut (n :: ms) (n :: ns) := by
  cases n with
  | text i t => exact .text i i t h
  | _ => exact .other rfl h

/-- More text behind both last texts. -/
theorem extend {i i' j j' : NodeInfo P} {s s' : Text} (h : Cut (.text i s :: ms) (.text j s' :: ns))
    (t : Text) : Cut (.text i' (s ++ t) :: ms) (.text j' (s' ++ t) :: ns) := by
  cases h with
  | other hn => cases hn
  | text _ _ _ h => exact .text i' j' (s ++ t) h
  | joined _ k _ _ h =>
    rw [List.append_assoc]
    exact .joined i' k j' (s ++ t) h

theorem eq_nil_iff (h : Cut ms ns) : ms = [] ↔ ns = [] := by
  cases h <;> simp

/-- The first node is the same on both sides, or a text that the other begins with. -/
theorem getLast? (h : Cut ms ns) (hn : ms.getLast? = some n) :
    (n.isText = false ∧ ns.getLast? = some n) ∨
      ∃ i j u v, n = .text i u ∧ ns.getLast? = some (.text j (u ++ v)) := by
  induction h with
  | nil => cases hn
  | @other m ms ns hm h ih =>
    cases ms with
    | nil =>
      obtain rfl := h.eq_nil_iff.mp rfl
      obtain rfl := Option.some.inj hn
      exact .inl ⟨hm, rfl⟩
    | cons a as =>
      have hne : ns ≠ [] := fun hnil => nomatch h.eq_nil_iff.mpr hnil
      rw [List.getLast?_cons_of_ne_nil (List.cons_ne_nil a as)] at hn
      rw [List.getLast?_cons_of_ne_nil hne]
      exact ih hn
  | @text ms ns i j t h ih =>
    cases ms with
    | nil =>
      obtain rfl := h.eq_nil_iff.mp rfl
      obtain rfl := Option.some.inj hn
      exact .inr ⟨i, j, t, [], rfl, by rw [List.append_nil]; rfl⟩
    | cons a as =>
      have hne : ns ≠ [] := fun hnil => nomatch h.eq_nil_iff.mpr hnil
      rw [List.getLast?_cons_of_ne_nil (List.cons_ne_nil a as)] at hn
      rw [List.getLast?_cons_of_ne_nil hne]
      exact ih hn
  | @joined ms ns i j k s t h ih =>
    have hne : ms ≠ [] := fun hnil => nomatch h.eq_nil_iff.mp hnil
    rw [List.getLast?_cons_of_ne_nil hne] at hn
    cases ns with
    | nil =>
      -- The text that the other one is joined to is the first.
      obtain ⟨htext, hlast⟩ | ⟨i', j', u, v, rfl, hlast⟩ := ih hn
      · obtain rfl := Option.some.inj hlast
        cases htext
      · obtain ⟨rfl, rfl⟩ := Inline.text.inj (Option.some.inj hlast)
        refine .inr ⟨i', k, u, v ++ t, rfl, ?_⟩
        rw [← List.append_assoc]
        rfl
    | cons a as =>
      rw [List.getLast?_cons_cons] at ih ⊢
      exact ih hn

/-- The last node is the same on both sides, or a text that the other ends with. -/
theorem head? (h : Cut ms ns) (hn : ms.head? = some n) :
    (n.isText = false ∧ ns.head? = some n) ∨
      ∃ i j u v, n = .text i v ∧ ns.head? = some (.text j (u ++ v)) := by
  cases h with
  | nil => cases hn
  | other hm _ =>
    obtain rfl := Option.some.inj hn
    exact .inl ⟨hm, rfl⟩
  | text i j t _ =>
    obtain rfl := Option.some.inj hn
    exact .inr ⟨i, j, [], t, rfl, rfl⟩
  | @joined _ _ i _ k s t _ =>
    obtain rfl := Option.some.inj hn
    exact .inr ⟨i, k, s, t, rfl, rfl⟩

end Cut

/-- Content that questions were asked of, and the same content without: texts are cut, and a text that is
open is so without the questions, too. -/
structure Cuts (f g : Fragments P) : Prop where
  nodes : Cut f.flush.nodes g.flush.nodes
  opened : g.pending? = none → f.pending? = none

namespace Cuts

variable {f g : Fragments P}

theorem empty : Cuts ({} : Fragments P) {} := ⟨.nil, id⟩

theorem flush (h : Cuts f g) : Cuts f.flush g where
  nodes := by simpa using h.nodes
  opened _ := pending_flush f

theorem push (h : Cuts f g) (n : Inline P) : Cuts (f.push n) (g.push n) :=
  ⟨h.nodes.cons n, fun _ => rfl⟩

variable [LT P] [DecidableLT P] [OfNat P 0]

theorem pushText (h : Cuts f g) (start stop : P) (t : Text) :
    Cuts (f.pushText start stop t) (g.pushText start stop t) := by
  refine ⟨?_, fun hnone => by simp [Fragments.pushText] at hnone⟩
  have hnodes := h.nodes
  cases hg : g.pending? with
  | none =>
    have hf := h.opened hg
    simp only [Fragments.flush, Fragments.pushText, hf, hg] at hnodes ⊢
    exact .text _ _ _ hnodes
  | some open' =>
    cases hf : f.pending? with
    | none =>
      -- Without the questions the piece goes on with a text that was cut here.
      simp only [Fragments.flush, Fragments.pushText, hf, hg, OpenText.toInline, List.reverse_cons,
        List.flatten_append, List.flatten_cons, List.flatten_nil, List.append_nil] at hnodes ⊢
      exact .joined _ _ _ _ hnodes
    | some opened =>
      simp only [Fragments.flush, Fragments.pushText, hf, hg, OpenText.toInline, List.reverse_cons,
        List.flatten_append, List.flatten_cons, List.flatten_nil, List.append_nil] at hnodes ⊢
      exact hnodes.extend t

theorem pushAll (h : Cuts f g) (ns : List (Inline P)) : Cuts (f.pushAll ns) (g.pushAll ns) := by
  induction ns generalizing f g with
  | nil => exact h
  | cons n rest ih =>
    cases n with
    | text i t => exact ih (h.pushText i.start i.stop t)
    | _ => exact ih (h.push _)

/-- The one after calls with questions among them, the other after those that add content. -/
theorem after (h : Cuts f g) (calls : List (Call P)) :
    Cuts (f.after calls) (g.after (calls.filter Call.adds)) := by
  induction calls generalizing f g with
  | nil => exact h
  | cons c rest ih =>
    cases c with
    | pushText start stop text => exact ih (h.pushText start stop text)
    | push n => exact ih (h.push n)
    | pushAll ns => exact ih (h.pushAll ns)
    | edgeSpace | finish => exact ih h.flush

omit [LT P] [DecidableLT P] [OfNat P 0] in
/-- Space at the front is found with the questions, too, unless they left an empty text there. -/
theorem leadingSpace_eq (h : Cuts f g) (hfilled : ∀ n ∈ f.toList.head?, n.isEmptyText = false) :
    f.leadingSpace = g.leadingSpace := by
  have hlast : ∀ e : Fragments P, e.toList.head? = e.flush.nodes.getLast? := fun e =>
    List.head?_reverse
  rw [leadingSpace, leadingSpace, hlast, hlast]
  rw [hlast] at hfilled
  cases hn : f.flush.nodes.getLast? with
  | none => rw [List.getLast?_eq_none_iff.mpr (h.nodes.eq_nil_iff.mp (List.getLast?_eq_none_iff.mp hn))]
  | some n =>
    obtain ⟨-, heq⟩ | ⟨i, j, u, v, rfl, heq⟩ := h.nodes.getLast? hn
    · rw [heq]
    · have hu : u ≠ [] := List.isEmpty_eq_false_iff.mp (hfilled _ hn)
      rw [heq]
      show Option.any _ u.head? = Option.any _ (u ++ v).head?
      rw [List.head?_append, List.head?_eq_some_head hu]
      rfl

omit [LT P] [DecidableLT P] [OfNat P 0] in
/-- So is space at the back. -/
theorem trailingSpace_eq (h : Cuts f g) (hfilled : ∀ n ∈ f.toList.getLast?, n.isEmptyText = false) :
    f.trailingSpace = g.trailingSpace := by
  have hfirst : f.toList.getLast? = f.flush.nodes.head? := List.getLast?_reverse
  rw [trailingSpace, trailingSpace]
  rw [hfirst] at hfilled
  cases hn : f.flush.nodes.head? with
  | none => rw [List.head?_eq_none_iff.mpr (h.nodes.eq_nil_iff.mp (List.head?_eq_none_iff.mp hn))]
  | some n =>
    obtain ⟨-, heq⟩ | ⟨i, j, u, v, rfl, heq⟩ := h.nodes.head? hn
    · rw [heq]
    · have hv : v ≠ [] := List.isEmpty_eq_false_iff.mp (hfilled _ hn)
      rw [heq]
      show Option.any _ v.getLast? = Option.any _ (u ++ v).getLast?
      rw [List.getLast?_append, List.getLast?_eq_some_getLast hv, Option.some_or]

end Cuts

/-! ## Whole runs -/

section Runs

variable [LT P] [DecidableLT P] [OfNat P 0] {calls : List (Call P)}

/-- However content came, it is the plain list of all that came that is put into normal form, with every
piece of text a node of its own.  So neither a question asked on the way shows in it, nor where one piece
of text ends and the next begins.  A later question about an edge is answered as without the questions
before it where no empty text stands at that edge. -/
theorem finish_after (hplaced : ∀ n ∈ calls.flatMap Call.nodes, ¬ n.info.start < 0) :
    let asked := after {} calls
    let unasked := after {} (calls.filter Call.adds)
    asked.finish = Inline.normalize (calls.flatMap Call.nodes) ∧
      asked.finish = unasked.finish ∧
      (∀ front back start middle stop s t, ¬ middle < 0 →
        calls = front ++ .pushText start stop (s ++ t) :: back →
        (after {} (front ++ .pushText start middle s :: .pushText middle stop t :: back)).finish
          = asked.finish) ∧
      ((∀ n ∈ asked.toList.head?, n.isEmptyText = false) →
        asked.leadingSpace = unasked.leadingSpace) ∧
      ((∀ n ∈ asked.toList.getLast?, n.isEmptyText = false) →
        asked.trailingSpace = unasked.trailingSpace) := by
  intro asked unasked
  have h := Gathers.empty.after hplaced
  have hcuts : Cuts asked unasked := Cuts.empty.after calls
  rw [List.nil_append] at h
  refine ⟨h.finish_eq, ?_, ?_, hcuts.leadingSpace_eq, hcuts.trailingSpace_eq⟩
  · have hfilter : ∀ n ∈ (calls.filter Call.adds).flatMap Call.nodes, ¬ n.info.start < 0 := by
      rwa [flatMap_nodes_filter]
    rw [(Gathers.empty.after hfilter).finish_eq, h.finish_eq, flatMap_nodes_filter]
    rfl
  · rintro front back start middle stop s t hmiddle rfl
    have hsplit : ∀ n ∈ (front ++ .pushText start middle s :: .pushText middle stop t :: back).flatMap
        Call.nodes, ¬ n.info.start < 0 := by
      simp only [List.flatMap_append, List.flatMap_cons, Call.nodes, List.forall_mem_append,
        List.forall_mem_singleton] at hplaced ⊢
      exact ⟨hplaced.1, hplaced.2.1, hmiddle, hplaced.2.2⟩
    rw [(Gathers.empty.after hsplit).finish_eq, h.finish_eq]
    -- Merged, the two pieces are the one.
    apply Inline.normalize_congr
    simp only [List.nil_append, List.flatMap_append, List.flatMap_cons, Call.nodes, List.singleton_append]
    exact Inline.merged_append_joinTexts _ (.span start middle) (.span middle stop) s t _

/-- A text in four pieces, one of them empty, with both questions asked between them, and one more behind
a formatted node. -/
theorem finish_after_sample :
    let bold : Inline Int := .strong (.span 4 9) [.text (.span 6 8) [0x62]]
    let calls : List (Call Int) := [.pushText 0 1 [0x61], .edgeSpace, .pushText 1 1 [], .finish,
      .pushAll [.text { flags := { synthetic := true }, start := 2, stop := 3 } [0x0A],
        .text (.span 3 4) [0x2C], bold], .edgeSpace, .pushText 9 10 [0x20]]
    (∀ n ∈ calls.flatMap Call.nodes, ¬ n.info.start < 0) ∧
      (after {} calls).finish = [.text (.span 0 4) [0x61, 0x20, 0x2C], bold] ∧
      (after {} calls).leadingSpace = false ∧ (after {} calls).trailingSpace = true := by
  intro bold calls
  have hplaced : ∀ n ∈ calls.flatMap Call.nodes, ¬ n.info.start < 0 := by
    simp [calls, bold, Call.nodes, NodeInfo.span, Inline.info]
  obtain ⟨hfinish, -, -, hleading, htrailing⟩ := finish_after hplaced
  have hfirst : ∀ n ∈ (after {} calls).toList.head?, n.isEmptyText = false := by
    rintro n ⟨⟩
    rfl
  have hlast : ∀ n ∈ (after {} calls).toList.getLast?, n.isEmptyText = false := by
    rintro n ⟨⟩
    rfl
  exact ⟨hplaced, hfinish, (hleading hfirst).trans rfl, (htrailing hlast).trans rfl⟩

/-- An empty text that a question made a node hides the space behind it from the next question. -/
theorem not_forall_leadingSpace_after :
    ¬ ∀ calls : List Call, (∀ n ∈ calls.flatMap Call.nodes, ¬ n.info.start < 0) →
      (after {} calls).leadingSpace = (after {} (calls.filter Call.adds)).leadingSpace := by
  intro h
  have heq := h [.pushText 0 0 [], .edgeSpace, .pushText 0 1 [0x20]] fun n _ => Nat.not_lt_zero _
  revert heq
  decide

end Runs

end Fragments

end LatexMarkdown
