import LatexMarkdown.Markdown
import LatexMarkdown.Proofs.Making.Change
import LatexMarkdown.Proofs.Showing
import LatexMarkdown.Proofs.Spacing
import LatexMarkdown.Proofs.Spans
import Mathlib.Data.List.DropRight
/-!
  Normal form of inline content.

  `Inline.Normal` says what content in normal form looks like, without the function that makes it:
  texts apart from each other and tidy, no forced break at an edge.  What `normalize` makes is
  normal (`normal_normalize`), and normal content is left as it is (`Normal.normalize_eq`), so
  normalizing twice is normalizing once.

  Everything that is gathered while a source is read is normalized in the end, however it was put
  together, so all content in the tree is in normal form (`inNormalForm_of_parseDocument`).  Written
  out, such content has no space at its edges (`Markdown.trimmed_inlineText`): a text there is tidy,
  and any other node is written with markers around it.
-/
namespace LatexMarkdown

open Inline (normalize)

variable {P : Type}

namespace Inline

variable {n : Inline P} {ns rest : List (Inline P)} {atEdge : Bool}

/-! ## Content in normal form -/

/-- Every text in the content is as tidying leaves it; `atEdge` says that an edge or a forced break
comes right before. -/
def Tidy (atEdge : Bool) : List (Inline P) → Prop
  | [] => True
  | .text i t :: rest =>
    (i.flags = {} ∧ t ≠ [] ∧ t.collapsed = t ∧ (atEdge = true → t.startsInSpace = false) ∧
      (edgeFirst rest = true → t.endsInSpace = false)) ∧ Tidy false rest
  | n :: rest => Tidy n.isHardBreak rest

/-- Content in normal form. -/
structure Normal (ns : List (Inline P)) : Prop where
  tidy : Tidy true ns
  separate : Separate ns
  front : ∀ n ∈ ns.head?, n.isHardBreak = false
  back : ∀ n ∈ ns.getLast?, n.isHardBreak = false

theorem tidy_cons_of_isText (h : n.isText = false) :
    Tidy atEdge (n :: rest) ↔ Tidy n.isHardBreak rest := by
  cases n with
  | text i t => cases h
  | _ => exact Iff.rfl

theorem isEmptyText_of_isText (h : n.isText = false) : n.isEmptyText = false := by
  cases n with
  | text i t => cases h
  | _ => rfl

/-- What comes before content matters only where a text is first in it. -/
theorem Tidy.of_head (h : Tidy atEdge ns) (hhead : ∀ n ∈ ns.head?, n.isText = false)
    (atEdge' : Bool) : Tidy atEdge' ns := by
  cases ns with
  | nil => exact trivial
  | cons n rest =>
    have hn := hhead n rfl
    exact (tidy_cons_of_isText hn).mpr ((tidy_cons_of_isText hn).mp h)

/-! ## Normalizing makes content normal -/

theorem separate_mergeTexts (ns : List (Inline P)) : Separate (mergeTexts ns) := by
  induction ns with
  | nil => exact trivial
  | cons n rest ih => exact separate_mergeInto n ih

/-- A text as tidying leaves it; `atEdge` and `back` say that an edge or a forced break comes right
before and right behind. -/
def tidyText (atEdge back : Bool) (t : Text) : Text :=
  let front := if atEdge then dropFrontSpace t.collapsed else t.collapsed
  if back then dropBackSpace front else front

@[simp] theorem tidyText_nil (atEdge back : Bool) : tidyText atEdge back [] = [] := by
  cases atEdge <;> cases back <;> rfl

/-- Space is dropped at the front as if it had been out before. -/
theorem tidyText_eq (atEdge back : Bool) (t : Text) :
    tidyText atEdge back t =
      let front := t.collapseFrom CodeUnit.isInlineSpace atEdge
      if back then dropBackSpace front else front := by
  cases atEdge with
  | false => rfl
  | true => simp only [tidyText, Text.collapseFrom_true, if_true]

/-- The space that a text loses, as it stands between its neighbours. -/
theorem tidyText_spec (atEdge back : Bool) (t : Text) :
    (tidyText atEdge back t).collapsed = tidyText atEdge back t ∧
      (atEdge = true → (tidyText atEdge back t).startsInSpace = false) ∧
        (back = true → (tidyText atEdge back t).endsInSpace = false) := by
  simp only [tidyText]
  generalize hfront' : (if atEdge then dropFrontSpace t.collapsed else t.collapsed) = front
  have hfront : front.collapsed = front ∧ (atEdge = true → front.startsInSpace = false) := by
    subst hfront'
    cases atEdge with
    | false => exact ⟨Text.collapsed_collapsed t, by simp⟩
    | true => exact ⟨Text.collapsed_dropFrontSpace t, fun _ => Text.startsInSpace_dropFrontSpace t⟩
  cases back with
  | false => exact ⟨hfront.1, hfront.2, by simp⟩
  | true =>
    obtain ⟨hcollapsed, hends⟩ := Text.collapsed_dropBackSpace hfront.1
    exact ⟨hcollapsed, fun h => Text.startsInSpace_dropBackSpace (hfront.2 h), fun _ => hends⟩

/-- The content that tidying leaves, texts without characters left out. -/
def tidied (atEdge : Bool) (ns : List (Inline P)) : List (Inline P) :=
  (tidyTexts atEdge ns).filter (!·.isEmptyText)

theorem tidied_cons_of_isText (h : n.isText = false) :
    tidied atEdge (n :: rest) = n :: tidied n.isHardBreak rest := by
  rw [tidied, tidyTexts_cons_of_isText h, List.filter_cons_of_pos]
  · rfl
  · rw [isEmptyText_of_isText h]
    rfl

/-- A text that stays, or one that had nothing but space which goes. -/
theorem tidied_text (atEdge : Bool) (i : NodeInfo P) (t : Text) (rest : List (Inline P)) :
    tidied atEdge (.text i t :: rest) =
      (if tidyText atEdge (edgeFirst rest) t = [] then [] else
        [.text { start := i.start, stop := i.stop } (tidyText atEdge (edgeFirst rest) t)])
        ++ tidied false rest := by
  have htexts : tidyTexts atEdge (.text i t :: rest)
      = .text { start := i.start, stop := i.stop } (tidyText atEdge (edgeFirst rest) t)
        :: tidyTexts false rest := rfl
  rw [tidied, htexts]
  cases tidyText atEdge (edgeFirst rest) t with
  | nil => rfl
  | cons u s => rfl

/-- Any other node than a text stays where it is. -/
theorem head_tidied (h : ∀ n ∈ ns.head?, n.isText = false) (atEdge : Bool) :
    (tidied atEdge ns).head? = ns.head? := by
  cases ns with
  | nil => rfl
  | cons n rest => rw [tidied_cons_of_isText (h n rfl)]; rfl

theorem edgeFirst_eq_of_head {ms : List (Inline P)} (h : ms.head? = ns.head?) :
    edgeFirst ms = edgeFirst ns := by
  cases ms <;> cases ns <;> simp_all [edgeFirst]

/-- Tidying merged content leaves tidy texts, and they stay apart. -/
theorem tidy_tidied (h : Separate ns) (atEdge : Bool) :
    Tidy atEdge (tidied atEdge ns) ∧ Separate (tidied atEdge ns) := by
  induction ns generalizing atEdge with
  | nil => exact ⟨trivial, trivial⟩
  | cons n rest ih =>
    obtain ⟨hapart, hrest⟩ := h
    by_cases ht : n.isText = true
    · cases n with
      | text i t =>
        -- No text comes behind this one, so what does come stays.
        have hhead := head_tidied (hapart rfl) false
        have hnext : ∀ m ∈ (tidied false rest).head?, m.isText = false := by
          rw [hhead]
          exact hapart rfl
        obtain ⟨htidy, hsep⟩ := ih hrest false
        rw [tidied_text]
        obtain ⟨hcollapsed, hstart, hend⟩ := tidyText_spec atEdge (edgeFirst rest) t
        generalize tidyText atEdge (edgeFirst rest) t = s at hcollapsed hstart hend ⊢
        split
        · exact ⟨htidy.of_head hnext atEdge, hsep⟩
        · next hne =>
          rw [← edgeFirst_eq_of_head hhead] at hend
          exact ⟨⟨⟨rfl, hne, hcollapsed, hstart, hend⟩, htidy⟩, fun _ => hnext, hsep⟩
      | _ => cases ht
    · have hn : n.isText = false := by simpa using ht
      obtain ⟨htidy, hsep⟩ := ih hrest n.isHardBreak
      rw [tidied_cons_of_isText hn]
      exact ⟨(tidy_cons_of_isText hn).mpr htidy, fun htext => absurd htext ht, hsep⟩

/-! ### Forced breaks at the edges -/

theorem isText_of_isHardBreak (h : n.isHardBreak = true) : n.isText = false := by
  cases n with
  | hardBreak i => rfl
  | _ => cases h

/-- Without the forced breaks in front, the content is still at an edge. -/
theorem Tidy.dropWhile (h : Tidy true ns) : Tidy true (ns.dropWhile isHardBreak) := by
  induction ns with
  | nil => exact trivial
  | cons n rest ih =>
    rw [List.dropWhile_cons]
    split
    · next hb =>
      have hrest := (tidy_cons_of_isText (isText_of_isHardBreak hb)).mp h
      rw [hb] at hrest
      exact ih hrest
    · exact h

theorem Separate.dropWhile (h : Separate ns) : Separate (ns.dropWhile isHardBreak) := by
  induction ns with
  | nil => exact trivial
  | cons n rest ih =>
    rw [List.dropWhile_cons]
    split
    · exact ih h.2
    · exact h

/-- A text before a forced break at the back stands at the edge without it. -/
theorem Tidy.of_concat (hb : n.isHardBreak = true) (h : Tidy atEdge (ns ++ [n])) :
    Tidy atEdge ns := by
  induction ns generalizing atEdge with
  | nil => exact trivial
  | cons m rest ih =>
    have hedge : edgeFirst (rest ++ [n]) = edgeFirst rest := by
      cases rest with
      | nil => exact hb
      | cons k more => rfl
    cases m with
    | text i t =>
      obtain ⟨⟨hflags, hne, hcollapsed, hstart, hend⟩, hrest⟩ := h
      exact ⟨⟨hflags, hne, hcollapsed, hstart, hedge ▸ hend⟩, ih hrest⟩
    | _ => exact ih h

/-- A text at the back has something in it and no space at its end. -/
theorem Tidy.last_text {i : NodeInfo P} {t : Text} (h : Tidy atEdge (ns ++ [.text i t])) :
    t ≠ [] ∧ t.endsInSpace = false := by
  induction ns generalizing atEdge with
  | nil =>
    obtain ⟨⟨-, hne, -, -, hend⟩, -⟩ := h
    exact ⟨hne, hend rfl⟩
  | cons m rest ih =>
    cases m with
    | text j s => exact ih h.2
    | _ => exact ih h

theorem Separate.of_concat (h : Separate (ns ++ [n])) : Separate ns := by
  induction ns with
  | nil => exact trivial
  | cons m rest ih =>
    refine ⟨fun ht k hk => h.1 ht k ?_, ih h.2⟩
    cases rest with
    | nil => cases hk
    | cons k' more => exact hk

theorem trimHardBreaks_eq (ns : List (Inline P)) :
    trimHardBreaks ns = (ns.dropWhile isHardBreak).rdropWhile isHardBreak := rfl

theorem tidy_rdropWhile (h : Tidy atEdge ns ∧ Separate ns) :
    Tidy atEdge (ns.rdropWhile isHardBreak) ∧ Separate (ns.rdropWhile isHardBreak) := by
  induction ns using List.reverseRecOn with
  | nil => exact h
  | append_singleton init n ih =>
    by_cases hb : n.isHardBreak = true
    · rw [List.rdropWhile_concat_pos _ _ _ hb]
      exact ih ⟨h.1.of_concat hb, h.2.of_concat⟩
    · rw [List.rdropWhile_concat_neg _ _ _ hb]
      exact h

/-- What normalizing makes is in normal form. -/
theorem normal_normalize (ns : List (Inline P)) : Normal (normalize ns) := by
  have hmerged := tidy_tidied (separate_mergeTexts ns) true
  have hdropped := tidy_rdropWhile ⟨hmerged.1.dropWhile, hmerged.2.dropWhile⟩
  refine ⟨hdropped.1, hdropped.2, ?_, ?_⟩
  · intro n hn
    have hne : normalize ns ≠ [] := by
      intro hnil
      simp [hnil] at hn
    obtain ⟨m, rest, heq, hb, -⟩ := exists_cons_normalize hne
    rw [heq] at hn
    exact Option.some.inj hn ▸ hb
  · intro n hn
    have hne : normalize ns ≠ [] := by
      intro hnil
      simp [hnil] at hn
    have hlast : ¬ ((normalize ns).getLast hne).isHardBreak = true :=
      List.rdropWhile_last_not isHardBreak _ hne
    rw [List.getLast?_eq_some_getLast hne] at hn
    rw [← Option.some.inj hn]
    simpa using hlast

/-! ## Normal content stays as it is -/

theorem Separate.mergeTexts_eq (h : Separate ns) : mergeTexts ns = ns := by
  induction ns with
  | nil => rfl
  | cons n rest ih =>
    show mergeInto n (mergeTexts rest) = n :: rest
    rw [ih h.2, mergeInto.eq_def]
    split
    · -- Two texts do not meet.
      exact absurd (h.1 rfl _ rfl) (by simp [isText])
    · rfl

theorem Tidy.tidied_eq (h : Tidy atEdge ns) : tidied atEdge ns = ns := by
  induction ns generalizing atEdge with
  | nil => rfl
  | cons n rest ih =>
    by_cases ht : n.isText = true
    · cases n with
      | text i t =>
        obtain ⟨⟨hflags, hne, hcollapsed, hstart, hend⟩, hrest⟩ := h
        have hinfo : ({ start := i.start, stop := i.stop } : NodeInfo P) = i := by rw [← hflags]
        have hfront : (if atEdge then dropFrontSpace t.collapsed else t.collapsed) = t := by
          rw [hcollapsed]
          split
          · next hedge => exact Text.dropFrontSpace_of_startsInSpace (hstart hedge)
          · rfl
        have hback : (if edgeFirst rest then dropBackSpace t else t) = t := by
          split
          · next hedge => exact Text.dropBackSpace_of_endsInSpace (hend hedge)
          · rfl
        rw [tidied, tidyTexts, hfront, hback, hinfo, List.filter_cons_of_pos]
        · exact congrArg _ (ih hrest)
        · simpa [isEmptyText] using hne
      | _ => cases ht
    · have hn : n.isText = false := by simpa using ht
      rw [tidied_cons_of_isText hn, ih ((tidy_cons_of_isText hn).mp h)]

theorem Normal.trimHardBreaks_eq (h : Normal ns) : trimHardBreaks ns = ns := by
  have hfront : ns.dropWhile isHardBreak = ns := by
    cases ns with
    | nil => rfl
    | cons n rest => rw [List.dropWhile_cons, if_neg (by simp [h.front n rfl])]
  rw [Inline.trimHardBreaks_eq, hfront, List.rdropWhile_eq_self_iff]
  intro hne
  rw [h.back _ (List.getLast?_eq_some_getLast hne)]
  simp

/-- Content in normal form is left as it is. -/
theorem Normal.normalize_eq (h : Normal ns) : normalize ns = ns := by
  show trimHardBreaks (tidied true (mergeTexts ns)) = ns
  rw [h.separate.mergeTexts_eq, h.tidy.tidied_eq, h.trimHardBreaks_eq]

/-- Normalizing twice is normalizing once. -/
theorem normalize_normalize (ns : List (Inline P)) : normalize (normalize ns) = normalize ns :=
  (normal_normalize ns).normalize_eq

end Inline

/-! ## Normal content written out -/

/-- A text with something in it and no space at either end. -/
structure Text.Trimmed (t : Text) : Prop where
  ne_nil : t ≠ []
  starts : t.startsInSpace = false
  ends : t.endsInSpace = false

namespace Markdown

open Text (endsInSpace startsInSpace)

variable {n : Inline P} {ns : List (Inline P)} {hardBreak : Text}

theorem inlineText_concat (hardBreak : Text) (afterMath : Bool) (ns : List (Inline P))
    (n : Inline P) : ∃ mathBefore,
      inlineText hardBreak afterMath (ns ++ [n])
        = inlineText hardBreak afterMath ns ++ spanText hardBreak mathBefore n := by
  induction ns generalizing afterMath with
  | nil => exact ⟨afterMath, by simp [inlineText]⟩
  | cons m rest ih =>
    obtain ⟨mathBefore, heq⟩ := ih (isMath m)
    refine ⟨mathBefore, ?_⟩
    rw [List.cons_append, inlineText, inlineText, heq, List.append_assoc]

/-- What stands between two marks has no space at its ends. -/
theorem trimmed_between {before after : Text} (hb : before ≠ []) (ha : after ≠ [])
    (hstart : before.startsInSpace = false) (hend : after.endsInSpace = false) (t : Text) :
    (before ++ t ++ after).Trimmed := by
  refine ⟨by simp [hb], ?_, ?_⟩
  · rw [List.append_assoc, Text.startsInSpace_append hb, hstart]
  · rw [Text.endsInSpace_append ha, hend]

theorem trimmed_codeSpan (code : Text) : (codeSpan code).Trimmed := by
  have hbackticks : ∀ n, backticks (n + 1) ≠ [] ∧ (backticks (n + 1)).startsInSpace = false ∧
      (backticks (n + 1)).endsInSpace = false := by
    intro n
    refine ⟨by simp [backticks], rfl, ?_⟩
    rw [backticks, List.replicate_succ', Text.endsInSpace_append (by simp)]
    decide
  obtain ⟨n, t, heq⟩ : ∃ n t, codeSpan code = backticks (n + 1) ++ t ++ backticks (n + 1) := by
    rw [codeSpan]
    split
    · exact ⟨0, code, rfl⟩
    · exact ⟨longestBackticks 0 code, " " ++ code ++ " ", by simp only [List.append_assoc]⟩
  obtain ⟨hne, hstart, hend⟩ := hbackticks n
  rw [heq]
  exact trimmed_between hne hne hstart hend t

/-- A node that is neither text nor a forced break is written with markers around it. -/
theorem trimmed_spanText (htext : n.isText = false) (hb : n.isHardBreak = false)
    (hardBreak : Text) : (spanText hardBreak false n).Trimmed := by
  cases n with
  | text i t => cases htext
  | hardBreak i => cases hb
  | code i t => exact trimmed_codeSpan t
  | strong i cs =>
    exact trimmed_between (by decide) (by decide) (by decide) (by decide) _
  | emphasis i cs =>
    exact trimmed_between (by decide) (by decide) (by decide) (by decide) _
  | link i url cs =>
    have heq : spanText hardBreak false (.link i url cs)
        = "[" ++ (inlineText hardBreak false cs ++ "](" ++ escapeDestination url) ++ ")" := by
      simp only [spanText, List.append_assoc]
    rw [heq]
    exact trimmed_between (by decide) (by decide) (by decide) (by decide) _
  | math i t =>
    exact trimmed_between (by decide) (by decide) (by decide) (by decide) _

/-- Mathematics before a node can put a space in front of it, no more. -/
theorem exists_spanText_eq (hardBreak : Text) (afterMath : Bool) (n : Inline P) :
    ∃ space, spanText hardBreak afterMath n = space ++ spanText hardBreak false n := by
  cases n with
  | math i t =>
    refine ⟨Text.ofString (if afterMath then " " else ""), ?_⟩
    simp only [spanText, List.append_assoc]
    rfl
  | _ => exact ⟨[], rfl⟩

/-- Written out, content in normal form has no space at its ends. -/
theorem trimmed_inlineText (h : Inline.Normal ns) (hne : ns ≠ []) (hardBreak : Text) :
    (inlineText hardBreak false ns).Trimmed := by
  have hstart : inlineText hardBreak false ns ≠ [] ∧
      (inlineText hardBreak false ns).startsInSpace = false := by
    obtain ⟨n, rest, rfl⟩ := List.exists_cons_of_ne_nil hne
    have hfirst : spanText hardBreak false n ≠ [] ∧
        (spanText hardBreak false n).startsInSpace = false := by
      by_cases htext : n.isText = true
      · cases n with
        | text i t =>
          obtain ⟨⟨-, hnonempty, -, hspace, -⟩, -⟩ := h.tidy
          exact ⟨hnonempty, hspace rfl⟩
        | _ => cases htext
      · have htrimmed := trimmed_spanText (by simpa using htext) (h.front n rfl) hardBreak
        exact ⟨htrimmed.ne_nil, htrimmed.starts⟩
    rw [inlineText, Text.startsInSpace_append hfirst.1]
    exact ⟨List.append_ne_nil_of_left_ne_nil hfirst.1 _, hfirst.2⟩
  have hend : (inlineText hardBreak false ns).endsInSpace = false := by
    obtain ⟨init, n, rfl⟩ := (List.eq_nil_or_concat ns).resolve_left hne
    rw [List.concat_eq_append] at h ⊢
    obtain ⟨mathBefore, heq⟩ := inlineText_concat hardBreak false init n
    have hlast : spanText hardBreak mathBefore n ≠ [] ∧
        (spanText hardBreak mathBefore n).endsInSpace = false := by
      by_cases htext : n.isText = true
      · cases n with
        | text i t =>
          obtain ⟨hnonempty, hspace⟩ := h.tidy.last_text
          exact ⟨hnonempty, hspace⟩
        | _ => cases htext
      · obtain ⟨space, hspace⟩ := exists_spanText_eq hardBreak mathBefore n
        have htrimmed := trimmed_spanText (by simpa using htext)
          (h.back n (by rw [List.getLast?_concat]; rfl)) hardBreak
        rw [hspace, Text.endsInSpace_append htrimmed.ne_nil]
        exact ⟨List.append_ne_nil_of_right_ne_nil _ htrimmed.ne_nil, htrimmed.ends⟩
    rw [heq, Text.endsInSpace_append hlast.1]
    exact hlast.2
  exact ⟨hstart.1, hstart.2, hend⟩

end Markdown

/-! ## Documents -/

section Documents

variable {settings : Settings} {source : Text} {options : Options} {parsed : Parsed}

/-- No token is read as a span with a style. -/
theorem Parse.Reads.kind_ne {ctx : Context} {c d : Cursor} {ns : List Inline}
    {n : Inline} (h : Reads ctx c d ns) (hn : n ∈ ns) : n.kind ≠ .strong ∧ n.kind ≠ .emphasis := by
  cases h with
  | dropped => cases hn
  | text | hardBreak | verbatim | url =>
    rw [List.mem_singleton.mp hn]
    exact ⟨by simp [Inline.kind], by simp [Inline.kind]⟩
  | comment =>
    rcases List.mem_cons.mp hn with rfl | hn
    · exact ⟨by simp [Inline.kind], by simp [Inline.kind]⟩
    · rw [List.mem_singleton.mp hn]
      exact ⟨by simp [Inline.kind], by simp [Inline.kind]⟩
  | math h =>
    have hmath := isMathSpan_of_readInlineMath h hn
    cases n with
    | math => exact ⟨by simp [Inline.kind], by simp [Inline.kind]⟩
    | _ => exact hmath.elim

/-- The content of a span with a style. -/
theorem Inline.Made.exists_normalize_eq {i : NodeInfo} {cs : List Inline}
    (h : (Inline.strong i cs).Made settings source ∨ (Inline.emphasis i cs).Made settings source) :
    ∃ ns, normalize ns = cs ∧ cs ≠ [] := by
  rcases h with h | h
  · cases h with
    | read _ h hn => exact absurd rfl (h.kind_ne hn).1
    | strong _ h hne => exact ⟨_, rfl, hne⟩
  · cases h with
    | read _ h hn => exact absurd rfl (h.kind_ne hn).2
    | emphasis _ h hne => exact ⟨_, rfl, hne⟩

/-- Content that is shown in a style: in normal form, and between the markers something without
space at its ends, whatever a forced break becomes. -/
def Inline.InStyle (marker : Text) (n : Inline P) : Prop :=
  normalize n.children = n.children ∧ n.children ≠ [] ∧
    ∀ hardBreak afterMath, ∃ inner : Text, inner.Trimmed ∧
      Markdown.spanText hardBreak afterMath n = marker ++ inner ++ marker

/-- The inline content right below a node is in normal form, and only a heading or a table cell may
have none. -/
def Node.InNormalForm : Node P → Prop
  | .block (.paragraph _ cs) => normalize cs = cs ∧ cs ≠ []
  | .block (.heading _ _ cs) => normalize cs = cs
  | .tableCell c => normalize c.children = c.children
  | .inline (.strong i cs) => Inline.InStyle "**" (.strong i cs)
  | .inline (.emphasis i cs) => Inline.InStyle "*" (.emphasis i cs)
  | _ => True

theorem Inline.Finished.normalize_eq {cs : List Inline} (h : Finished settings source cs) :
    normalize cs = cs := by
  obtain ⟨gathered, -, rfl⟩ := h
  exact Inline.normalize_normalize gathered

/-- What is made of a source is in normal form. -/
theorem Node.Made.inNormalForm {n : Node} (h : n.Made settings source) : n.InNormalForm := by
  cases n with
  | block b =>
    cases b with
    | paragraph i cs => exact ⟨h.1.normalize_eq, h.2⟩
    | heading i level cs => exact Inline.Finished.normalize_eq h
    | _ => exact trivial
  | tableCell c => exact Inline.Finished.normalize_eq h
  | inline n =>
    cases n with
    | strong i cs =>
      obtain ⟨ns, rfl, hne⟩ := Inline.Made.exists_normalize_eq (.inl h)
      exact ⟨Inline.normalize_normalize ns, hne, fun hardBreak _ =>
        ⟨_, Markdown.trimmed_inlineText (Inline.normal_normalize ns) hne hardBreak, rfl⟩⟩
    | emphasis i cs =>
      obtain ⟨ns, rfl, hne⟩ := Inline.Made.exists_normalize_eq (.inr h)
      exact ⟨Inline.normalize_normalize ns, hne, fun hardBreak _ =>
        ⟨_, Markdown.trimmed_inlineText (Inline.normal_normalize ns) hne hardBreak, rfl⟩⟩
    | _ => exact trivial
  | _ => exact trivial

/-- All inline content of a document that is read is in normal form. -/
theorem inNormalForm_of_parseDocument (h : parseDocument source options = .ok parsed) :
    ∀ n ∈ (Node.document parsed.document).tree.preorder, n.InNormalForm := by
  obtain ⟨settings, -, hmade⟩ := allMade_of_parseDocument h
  exact fun n hn => (hmade n hn).inNormalForm

/-- A label, a style within a style with a forced break at its edge, and a cell that begins with
space. -/
theorem inNormalForm_of_parseDocument_sample :
    let source : Text := "\\begin\x7bitemize\x7d\\item[ a ]\\textbf\x7b b \\emph\x7bc\\\\\x7d \x7d"
      ++ "\\end\x7bitemize\x7d\\begin\x7btabular\x7d\x7bc\x7d  d& $e$ \\end\x7btabular\x7d"
    ∃ parsed, parseDocument source {} = .ok parsed ∧
      (Node.document parsed.document).tree.preorder.map Node.kind
        = [.document, .list, .listItem, .strong, .text, .text, .strong, .text, .emphasis, .text,
            .table, .tableRow, .tableCell, .text, .tableCell, .math] ∧
      ∀ n ∈ (Node.document parsed.document).tree.preorder, n.InNormalForm := by
  intro source
  have hread : (Document.parse {} source).map (fun p =>
      (Node.document p.document).tree.preorder.map Node.kind)
        = .ok [.document, .list, .listItem, .strong, .text, .text, .strong, .text, .emphasis, .text,
            .table, .tableRow, .tableCell, .text, .tableCell, .math] := by
    decide +kernel
  have hresolve : ({} : Options).resolve = .ok {} := rfl
  obtain ⟨parsed, h, hkinds⟩ := exists_of_parse_map hresolve hread
  exact ⟨parsed, h, hkinds, inNormalForm_of_parseDocument h⟩

end Documents

end LatexMarkdown
