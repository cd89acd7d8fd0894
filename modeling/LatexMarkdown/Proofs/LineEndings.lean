import LatexMarkdown.Proofs.Concatenation
import LatexMarkdown.Proofs.Likeness
import LatexMarkdown.Proofs.LineEndings.Lexing
import LatexMarkdown.Proofs.LineEndings.Output
import LatexMarkdown.Proofs.Making.Change
import LatexMarkdown.Proofs.Mathematics
/-!
  Line feeds alone, and carriage returns before them.

  Main statement: `convert_withReturns`.  A source without carriage returns that is converted is also
  converted with one before every line feed, and the output is the same where no line feed stands in
  what is taken as it is spelled: display mathematics and the destinations of links.  There the
  carriage returns get into the output (`not_forall_convert_withReturns`).

  The tokens of the two sources correspond (`Text.returned_tokens`), so the two runs are alike step by
  step (`Parse.Likeness.agree_outcome`) and come to trees that differ in line breaks alone; and these
  are written alike (`Markdown.blocksLines_of_returned`).
-/
namespace LatexMarkdown

open Markdown

/-! ## What is taken as it is spelled -/

/-- A text that may have line breaks of the source in it: display mathematics, and the destination of
a link, which inline code may show as well. -/
def Node.spelled? : Node → Option Text
  | .inline (.link _ url _) => some url
  | .inline (.code _ t) | .block (.math _ t _) => some t
  | _ => none

/-- The texts of a document that may have line breaks of the source in them, code blocks apart. -/
def Document.spelledTexts (d : Document) : List Text :=
  (Node.document d).tree.preorder.filterMap Node.spelled?

section Spelled

variable {settings : Settings} {source : Text} {n : Inline} {ns : List Inline} {i : NodeInfo}
  {t : Text}

namespace Inline

/-- In normal form a text has no line feed. -/
theorem Finished.unbroken_text (h : Finished settings source ns) (hmem : .text i t ∈ ns) :
    t.Unbroken := by
  obtain ⟨gathered, -, rfl⟩ := h
  rcases mem_normalize hmem with ⟨-, htext⟩ | ⟨j, s, heq, hs⟩
  · cases htext
  · cases heq
    exact fun hfeed => absurd (hs 0x0A hfeed (by decide)) (by decide)

/-- Only a link that shows its destination has a text below it that is not in normal form. -/
theorem Made.unbroken_text (h : n.Made settings source)
    (hurl : ∀ i url cs, n = .link i url cs → url.Unbroken) (hmem : .text i t ∈ n.children) :
    t.Unbroken := by
  have hnormal : ∀ {ns : List Inline}, (∀ n ∈ ns, n.Made settings source) →
      .text i t ∈ normalize ns → t.Unbroken := fun hns => Finished.unbroken_text ⟨_, hns, rfl⟩
  cases h with
  | text | code => cases hmem
  | strong _ h | emphasis _ h | link _ _ h => exact hnormal h hmem
  | url j h =>
    cases List.mem_singleton.mp hmem
    exact hurl _ _ _ rfl
  | read _ h hn =>
    cases h with
    | dropped => cases hn
    | text | hardBreak | verbatim =>
      rw [List.mem_singleton.mp hn] at hmem
      cases hmem
    | comment =>
      rcases List.mem_cons.mp hn with rfl | hn
      · cases hmem
      · rw [List.mem_singleton.mp hn] at hmem
        cases hmem
    | url =>
      cases List.mem_singleton.mp hn
      cases List.mem_singleton.mp hmem
      exact hurl _ _ _ rfl
    | math h =>
      have hmath := Parse.isMathSpan_of_readInlineMath h hn
      cases n with
      | math => cases hmem
      | _ => exact hmath.elim

/-- Inline mathematics is on one line. -/
theorem Made.unbroken_math (h : Made settings source (.math i t)) : t.Unbroken := by
  cases h with
  | read _ h hn =>
    cases h with
    | dropped => cases hn
    | text | hardBreak | verbatim | url => cases List.mem_singleton.mp hn
    | comment =>
      rcases List.mem_cons.mp hn with heq | hn
      · cases heq
      · cases List.mem_singleton.mp hn
    | math h =>
      obtain ⟨-, body, rfl⟩ := Parse.isMathSpan_of_readInlineMath h hn
      exact .collapse (by decide) _

end Inline

/-- A text below a node is on one line, unless it is a destination that is shown. -/
theorem Node.Made.unbroken_text {m : Node} (h : m.Made settings source)
    (hurl : ∀ t ∈ m.spelled?, t.Unbroken) (hmem : .inline (.text i t) ∈ m.children) :
    t.Unbroken := by
  have hinline : ∀ {cs : List Inline}, Node.inline (.text i t) ∈ cs.map Node.inline →
      Inline.text i t ∈ cs := by
    intro cs hmem
    obtain ⟨n, hn, heq⟩ := List.mem_map.mp hmem
    cases heq
    exact hn
  have hnone : ∀ {α : Type} {f : α → Node} {l : List α}, (∀ a, f a ≠ .inline (.text i t)) →
      Node.inline (.text i t) ∉ l.map f := by
    intro α f l hf hmem
    obtain ⟨a, -, heq⟩ := List.mem_map.mp hmem
    exact hf a heq
  cases m with
  | document => exact absurd hmem (hnone (by simp))
  | tableRow => exact absurd hmem (hnone (by simp))
  | tableCell c => exact Inline.Finished.unbroken_text h (hinline hmem)
  | inline n =>
    refine Inline.Made.unbroken_text h (fun i url cs heq => hurl url ?_) (hinline hmem)
    rw [heq]
    rfl
  | listItem item =>
    obtain ⟨label, content, -, hcontent, heq⟩ := h
    have hlabelled : Inline.text i t ∈ Parse.labelled label content := by
      rw [← heq]
      exact hinline ((List.mem_append.mp hmem).resolve_right (hnone (by simp)))
    by_cases hne : label = []
    · subst hne
      exact hcontent.unbroken_text hlabelled
    · obtain ⟨_, _, _, hshape⟩ := Parse.exists_labelled_eq hne content
      rw [hshape] at hlabelled
      rcases List.mem_cons.mp hlabelled with heq | hmem
      · cases heq
      split at hmem
      · cases hmem
      · rcases List.mem_cons.mp hmem with heq | hmem
        · cases heq
          decide
        · exact hcontent.unbroken_text hmem
  | block b =>
    cases b with
    | paragraph => exact h.1.unbroken_text (hinline hmem)
    | heading => exact Inline.Finished.unbroken_text h (hinline hmem)
    | quote => exact absurd hmem (hnone (by simp))
    | list => exact absurd hmem (hnone (by simp))
    | table => exact absurd hmem (hnone (by simp))
    | code => cases hmem
    | math => cases hmem

/-- Where no line feed stands in what is taken as it is spelled, none stands in anything that is
written as it is. -/
theorem Node.AllMade.writtenUnbroken {m : Node} (h : m.AllMade settings source)
    (htext : ∀ i t, m ≠ .inline (.text i t))
    (hspelled : ∀ k ∈ m.tree.preorder, ∀ t ∈ k.spelled?, t.Unbroken) : m.WrittenUnbroken := by
  -- What a text is like is known from the node above it, so this goes down with the rest.
  have hdown := Node.forall_preorder (n := m) (p := fun k => k.AllMade settings source ∧
    (∀ l ∈ k.tree.preorder, ∀ t ∈ l.spelled?, Text.Unbroken t) ∧
      ∀ i t, k = .inline (.text i t) → t.Unbroken) ?_ ⟨h, hspelled, fun i t heq => absurd heq (htext i t)⟩
  · intro k hk t ht
    obtain ⟨hmade, hspelled, htext⟩ := hdown k hk
    have hself := hspelled k (mem_preorder_tree.mpr (.inl rfl))
    cases k with
    | block b => cases b <;> exact hself t ht
    | inline n =>
      cases n with
      | text i s =>
        cases ht
        exact htext i _ rfl
      | math i s =>
        cases ht
        exact Inline.Made.unbroken_math hmade.made
      | link | code => exact hself t ht
      | _ => cases ht
    | _ => cases ht
  · rintro k ⟨hmade, hspelled, -⟩ c hc
    refine ⟨hmade.children c hc, fun l hl => hspelled l (mem_preorder_tree.mpr (.inr ⟨c, hc, hl⟩)), ?_⟩
    rintro i t rfl
    exact hmade.made.unbroken_text (hspelled k (mem_preorder_tree.mpr (.inl rfl))) hc

end Spelled

/-! ## Reading -/

namespace Parse.Likeness

variable {settings : Settings} {source : Text}

theorem same_returns {t t' : Token} (h : t.Returned source t') :
    (returns settings source).Same t t' where
  kind := h.kind
  blankLine := by rw [h.flags]
  escaped := by rw [h.flags]
  name := fun hbreak hraw => by rw [h.text.eq, Text.withReturns_of_forall (h.unbroken hbreak hraw)]
  text := h.text
  spelling := by
    show Text.Returned (Source.spelling source.toArray t) (Source.spelling source.withReturns.toArray t')
    rw [spelling_eq_slice, spelling_eq_slice]
    exact h.spelling

theorem pairs_returns {l l' : List Token} (h : List.Forall₂ (Token.Returned source) l l')
    (hend : ∀ t ∈ l, t.kind ≠ .endOfFile) : (returns settings source).Pairs false l l' := by
  induction h with
  | nil => exact .nil false
  | cons ht _ ih =>
    rw [List.forall_mem_cons] at hend
    exact .same (same_returns ht) hend.1 False.elim (ih hend.2)

/-- Where reading the two sources begins is alike. -/
theorem stands_returns (hclean : 0x0D ∉ source) :
    (returns settings source).Stands (.initial settings source)
      (.initial settings source.withReturns) := by
  have htokens := Text.returned_tokens hclean settings.keepComments
  have hahead : List.Forall₂ (Token.Returned source) (source.cursor settings.keepComments).ahead
      (source.withReturns.cursor settings.keepComments).ahead := by
    show List.Forall₂ _ (List.dropLast _) (List.dropLast _)
    rw [List.dropLast_eq_take, List.dropLast_eq_take, ← htokens.length_eq]
    exact List.forall₂_take _ htokens
  refine Alike.stands ⟨.nil, .nil, .none⟩ (b := false) ⟨?_, State.terminated_initial _ _,
    State.terminated_initial _ _, False.elim⟩
  exact pairs_returns hahead (Text.kind_ahead_cursor _ _)

/-- The two sources are read to blocks that differ in line breaks alone, or both fail. -/
theorem agree_returns (settings : Settings) (hclean : 0x0D ∉ source) :
    Agree (fun r r' => List.Forall₂ Block.Returned r.1 r'.1) (outcomeOf settings source)
      (outcomeOf settings source.withReturns) :=
  agree_outcome (R := returns settings source) id (stands_returns hclean)

end Parse.Likeness

/-! ## Conversion -/

/-- A source that is converted is read, there is room for its blocks, and its output is what they are
written as. -/
theorem exists_of_convert_ok {source output : Text} {options : Options}
    (h : convert source options = .ok output) :
    ∃ settings blocks diagnostics, options.resolve = .ok settings ∧
      Parse.outcomeOf settings source = .ok (blocks, diagnostics) ∧
      sizeError? blocks.reverse = none ∧
      output = Text.join [0x0A] (blocksLines settings.calloutIcon 0 blocks.reverse) := by
  unfold convert convertWithDiagnostics withSettings at h
  cases hresolve : options.resolve with
  | error e => rw [hresolve] at h; cases h
  | ok settings =>
    rw [hresolve] at h
    dsimp only at h
    cases hconvert : convertUnder settings source with
    | error e => rw [hconvert] at h; cases h
    | ok c =>
      rw [hconvert] at h
      obtain ⟨blocks, diagnostics, houtcome, hwritten⟩ :=
        Concatenation.exists_of_convertUnder_ok hconvert
      obtain ⟨hroom, rfl⟩ := Concatenation.written_eq_ok_iff.mp hwritten
      exact ⟨settings, blocks, diagnostics, rfl, houtcome, hroom, (Except.ok.inj h).symm⟩

section Outcome

variable {source : Text} {options : Options} {settings : Settings} {blocks : List Block}
  {diagnostics : List Diagnostic} (hsettings : options.resolve = .ok settings)
  (h : Parse.outcomeOf settings source = .ok (blocks, diagnostics))

include hsettings h

theorem convert_of_outcomeOf (hroom : sizeError? blocks.reverse = none) :
    convert source options
      = .ok (Text.join [0x0A] (blocksLines settings.calloutIcon 0 blocks.reverse)) := by
  rw [convert, Concatenation.convertWithDiagnostics_of_outcomeOf hsettings h,
    Concatenation.written_eq_ok_iff.mpr ⟨hroom, rfl⟩]
  rfl

theorem parseDocument_of_outcomeOf :
    ∃ parsed, parseDocument source options = .ok parsed ∧
      parsed.document.children = blocks.reverse := by
  unfold parseDocument withSettings
  simp only [hsettings, Document.parse_eq, h]
  exact ⟨_, rfl, rfl⟩

end Outcome

/-- A source without carriage returns that is converted is converted as well with one before every
line feed, under the same options.  The output is the same, unless a line feed of the source stands in
a link's destination or in display mathematics, which are taken as they are spelled. -/
theorem convert_withReturns {source output : Text} {options : Options} (hclean : 0x0D ∉ source)
    (h : convert source options = .ok output) :
    ∃ parsed output', parseDocument source options = .ok parsed ∧
      convert source.withReturns options = .ok output' ∧
      ((∀ t ∈ parsed.document.spelledTexts, t.Unbroken) → output' = output) := by
  obtain ⟨settings, blocks, diagnostics, hsettings, houtcome, hroom, rfl⟩ := exists_of_convert_ok h
  obtain ⟨parsed, hparsed, hchildren⟩ := parseDocument_of_outcomeOf hsettings houtcome
  obtain ⟨_, -, hmade⟩ := allMade_of_parseDocument hparsed
  have hagree := Parse.Likeness.agree_returns settings hclean
  rw [houtcome] at hagree
  generalize hr : Parse.outcomeOf settings source.withReturns = r at hagree
  cases hagree with
  | ok hblocks =>
    have hreturned := List.rel_reverse hblocks
    have hroom' := (sizeError?_of_returned hreturned).trans hroom
    refine ⟨parsed, _, hparsed, convert_of_outcomeOf hsettings hr hroom', fun hspelled => ?_⟩
    have hwritten : (Node.document parsed.document).WrittenUnbroken :=
      hmade.writtenUnbroken (by simp) fun n hn t ht =>
        hspelled t (List.mem_filterMap.mpr ⟨n, hn, ht⟩)
    have hbelow : ∀ b ∈ blocks.reverse, (Node.block b).WrittenUnbroken := by
      rw [← hchildren]
      exact hwritten.mem_children (List.Subset.refl _)
    rw [blocksLines_of_returned _ _ _ hreturned hbelow]

/-- A heading, inline mathematics and strong text that go over lines, a link and code. -/
theorem convert_withReturns_sample :
    let source : Text := "\\section\x7ba\nb\x7d$c\n+d$ \\textbf\x7be\nf\x7d\\url\x7bg\x7d\n\n"
      ++ "\\begin\x7bverbatim\x7d\n\x7b\n\n\\end\x7bverbatim\x7d"
    let output : Text := "# a b\n$$c +d$$ **e f**[g](g)\n```\n\x7b\n\n```"
    0x0D ∉ source ∧ convert source = .ok output ∧ ∃ parsed, parseDocument source = .ok parsed ∧
      parsed.document.spelledTexts = [("g" : Text)] ∧ convert source.withReturns = .ok output := by
  intro source output
  have hclean : 0x0D ∉ source := by decide
  have hconvert : convert source = .ok output := Concatenation.eq_ok_iff_toOption.mpr (by decide +kernel)
  have hread : (Document.parse {} source).map (·.document.spelledTexts) = .ok [("g" : Text)] := by
    decide +kernel
  have hresolve : ({} : Options).resolve = .ok {} := rfl
  obtain ⟨parsed, hparsed, hspelled⟩ := exists_of_parse_map hresolve hread
  obtain ⟨parsed', output', hparsed', hreturns, hsame⟩ := convert_withReturns hclean hconvert
  obtain rfl : parsed' = parsed := Except.ok.inj (hparsed'.symm.trans hparsed)
  have hunbroken : ∀ t ∈ [("g" : Text)], t.Unbroken := by decide
  rw [hsame (hspelled ▸ hunbroken)] at hreturns
  exact ⟨hclean, hconvert, parsed', hparsed, hspelled, hreturns⟩

/-- Display mathematics over two lines. -/
def brokenMathematics : Text := "$$a\nb$$"

/-- The carriage return of a line break in display mathematics gets into the output. -/
theorem not_forall_convert_withReturns :
    ¬ ∀ (source : Text) (options : Options) (output : Text), 0x0D ∉ source →
      convert source options = .ok output → convert source.withReturns options = .ok output := by
  intro hall
  have hconvert : convert brokenMathematics = .ok brokenMathematics :=
    Concatenation.eq_ok_iff_toOption.mpr (by decide +kernel)
  have hsame := hall brokenMathematics {} brokenMathematics (by decide) hconvert
  rw [Concatenation.eq_ok_iff_toOption] at hsame
  exact absurd hsame (by decide +kernel)

end LatexMarkdown
