import LatexMarkdown.Proofs.Facing
import LatexMarkdown.Proofs.Fencing
/-!
  Code kept from its `\verb` to its code span.

  `Markdown.ReadsBack` says what a reader of the output does: the run of backticks that a code
  span begins with is looked for again, as a run of its own, and the code is what stands before
  it.  No code can close the span that it stands in, or grow into its delimiters, since the
  delimiters are longer than every run in it and a space keeps them apart
  (`Markdown.readsBack_codeSpan`).  Only a span without code is not kept: its two delimiters are
  one run of two backticks, which nothing closes.

  Main statement: `convert_verb`.
-/
namespace LatexMarkdown

/-! ## Reading a code span -/

/-- A run of so many backticks stands at an index, with no other backtick right before or behind it.
-/
def Text.HasRun (t : Text) (n i : Nat) : Prop :=
  ∃ before after, t = before ++ (Markdown.backticks n ++ after) ∧ before.length = i ∧
    before.getLast? ≠ some 0x60 ∧ after.head? ≠ some 0x60

namespace Markdown

/-- The text is a code span around the content: the run of backticks at its front comes again for
the first time at its end. -/
structure Encloses (out : Text) (n : Nat) (content : Text) : Prop where
  pos : 0 < n
  spelled : out = backticks n ++ (content ++ backticks n)
  opens : out.HasRun n 0
  closes : out.HasRun n (n + content.length)
  first : ∀ i, 0 < i → i < n + content.length → ¬ out.HasRun n i

/-- The text is a code span with this code in it, or, behind more backticks than one, with a space
on either side of the code. -/
def ReadsBack (out code : Text) : Prop :=
  ∃ n, Encloses out n (if n = 1 then code else 0x20 :: (code ++ [0x20]))

variable {n run : Nat} {content code : Text}

theorem longestBackticks_append_space (run : Nat) (t : Text) :
    longestBackticks run (t ++ [0x20]) = longestBackticks run t := by
  induction t generalizing run with
  | nil => simp [longestBackticks]
  | cons u t ih =>
    rw [List.cons_append, longestBackticks, longestBackticks, ih, ih]

/-- A space on either side makes no run longer. -/
theorem longestBackticks_padded (t : Text) :
    longestBackticks 0 (0x20 :: (t ++ [0x20])) = longestBackticks 0 t := by
  rw [longestBackticks, if_neg (by decide), longestBackticks_append_space, Nat.zero_max]

/-- What a run of backticks begins with ends in one. -/
theorem getLast?_of_prefix_backticks {t : Text} (h : t <+: backticks n) (hne : t ≠ []) :
    t.getLast? = some 0x60 := by
  have hlast := List.getLast?_eq_some_getLast hne
  rw [hlast, List.eq_of_mem_replicate (h.subset (List.getLast_mem hne))]

/-- Around content that is not empty, has no backtick at its edges and no run so long in it, so many
backticks enclose it. -/
theorem encloses_of_not_infix (hn : 0 < n) (hne : content ≠ []) (hhead : content.head? ≠ some 0x60)
    (hlast : content.getLast? ≠ some 0x60) (hin : ¬ backticks n <:+: content) :
    Encloses (backticks n ++ (content ++ backticks n)) n content := by
  have hlength : (backticks n).length = n := List.length_replicate
  refine ⟨hn, rfl, ⟨[], content ++ backticks n, rfl, rfl, by simp, ?_⟩,
    ⟨backticks n ++ content, [], by simp, by simp [hlength], ?_, by simp⟩, ?_⟩
  · rwa [List.head?_append_of_ne_nil _ hne]
  · rwa [List.getLast?_append_of_ne_nil _ hne]
  · rintro i hpos hlt ⟨before, after, heq, hbefore, hedge, -⟩
    rcases Nat.lt_or_ge i n with hi | hi
    · -- In the middle of the first run a backtick stands before it.
      have hprefix : before <+: backticks n :=
        List.prefix_of_prefix_length_le ⟨_, heq.symm⟩ (List.prefix_append _ _) (by omega)
      refine hedge (getLast?_of_prefix_backticks hprefix ?_)
      rintro rfl
      simp at hbefore
      omega
    · -- Behind it the run begins in the content, and would be in it or go on behind its edge.
      obtain ⟨j, rfl⟩ := Nat.exists_eq_add_of_le hi
      have hj : j < content.length := by omega
      have hdrop : backticks n ++ after = content.drop j ++ backticks n := by
        have hafter := congrArg (List.drop (n + j)) heq
        rw [List.drop_left' hbefore, ← List.drop_drop, List.drop_left' hlength,
          List.drop_append_of_le_length (Nat.le_of_lt hj)] at hafter
        exact hafter.symm
      have hsuffix : content.drop j <:+ content := List.drop_suffix j content
      have hdropne : content.drop j ≠ [] := by simpa using hj
      rcases Nat.le_total n (content.drop j).length with hle | hle
      · refine hin (List.IsInfix.trans (List.IsPrefix.isInfix ?_) hsuffix.isInfix)
        exact List.prefix_of_prefix_length_le ⟨_, hdrop⟩ (List.prefix_append _ _) (by omega)
      · have hprefix : content.drop j <+: backticks n :=
          List.prefix_of_prefix_length_le ⟨_, hdrop.symm⟩ (List.prefix_append _ _) (by omega)
        refine hlast ?_
        obtain ⟨front, hfront⟩ := hsuffix
        rw [← hfront, List.getLast?_append_of_ne_nil _ hdropne]
        exact getLast?_of_prefix_backticks hprefix hdropne

/-- A code span reads back to its code, unless that is empty. -/
theorem readsBack_codeSpan : ReadsBack (codeSpan code) code ↔ code ≠ [] := by
  constructor
  · rintro ⟨n, hspan⟩ rfl
    -- The two delimiters around nothing are one run of two.
    have hlength := congrArg List.length hspan.spelled
    have hpos := hspan.pos
    have hcontent : n = 1 := by
      by_contra hne
      rw [if_neg hne] at hlength
      simp [codeSpan, longestBackticks, backticks] at hlength
      omega
    subst hcontent
    obtain ⟨before, after, heq, hbefore, -, hafter⟩ := hspan.opens
    rw [List.length_eq_zero_iff.mp hbefore] at heq
    cases heq
    exact hafter rfl
  · intro hne
    cases hrun : longestBackticks 0 code with
    | zero =>
      -- Without a backtick in it the code needs no space, and one on either side is enough.
      have hnone : ¬ backticks 1 <:+: code := fun h => by
        have hle := le_longestBackticks_of_infix h
        omega
      have hedge : ∀ u ∈ code, u ≠ 0x60 := by
        rintro u hu rfl
        obtain ⟨front, back, rfl⟩ := List.append_of_mem hu
        exact hnone ⟨front, back, by simp [backticks]⟩
      refine ⟨1, ?_⟩
      have hspan : codeSpan code = backticks 1 ++ (code ++ backticks 1) := by
        simp only [codeSpan, hrun, List.append_assoc]
      rw [hspan, if_pos rfl]
      exact encloses_of_not_infix Nat.one_pos hne
        (fun h => hedge _ (List.mem_of_mem_head? h) rfl)
        (fun h => hedge _ (List.mem_of_getLast? h) rfl) hnone
    | succ r =>
      -- The space makes the edges of the content safe, and no run in it longer.
      refine ⟨r + 1 + 1, ?_⟩
      have hspan : codeSpan code
          = backticks (r + 1 + 1) ++ (0x20 :: (code ++ [0x20]) ++ backticks (r + 1 + 1)) := by
        have hspace : Text.ofString " " = [0x20] := rfl
        simp [codeSpan, hrun, hspace]
      rw [hspan, if_neg (by omega)]
      refine encloses_of_not_infix (Nat.succ_pos _) (by simp) (by simp) ?_ fun h => ?_
      · rw [← List.cons_append, List.getLast?_concat]
        decide
      · have hle := le_longestBackticks_of_infix h
        rw [longestBackticks_padded] at hle
        omega

end Markdown

/-! ## Tokens and the run -/

/-- A unit that `\verb` takes for its delimiter. -/
structure CodeUnit.DelimitsVerb (d : CodeUnit) : Prop where
  isLetter : d.isLetter = false
  ne_star : d ≠ 0x2A
  isLineSpace : d.isLineSpace = false
  isLineBreak : d.isLineBreak = false

/-- Code between two delimiters of `\verb`. -/
def verbSource (d : CodeUnit) (code : Text) : Text := "\\verb" ++ d :: (code ++ [d])

variable {d : CodeUnit} {code : Text}

namespace Lexeme

/-- The command takes the unit behind it for the delimiter. -/
theorem covers_verb (hd : d.DelimitsVerb) (rest : Text) :
    Covers { kind := .command, length := 5, text := "verb", mode := .verbatim d } .normal "\\verb"
      (d :: rest) := by
  have hletters : ∀ u ∈ Text.ofString "verb", CodeUnit.isLetter u = true := by decide
  have hname : commandName (Text.ofString "verb" ++ d :: rest) = "verb" :=
    commandName_append hletters (forall_mem_head?_cons ⟨hd.isLetter, hd.ne_star⟩ rest)
  refine ⟨⟨0x5C, "verb", rfl, ?_⟩, rfl⟩
  have hmarker : ofMarker? "verb" (d :: rest) = none := rfl
  have hmode : modeAfter "verb" (d :: rest) = .verbatim d := by
    simp [modeAfter, hd.isLetter, hd.isLineSpace, hd.isLineBreak]
  show ofEscape (Text.ofString "verb" ++ d :: rest) = _
  rw [ofEscape_of_letters (by decide) hletters]
  simp only [ofCommand, hname, List.drop_append_length, hmarker, hmode]
  rfl

/-- The argument ends at the next delimiter, and is one lexeme. -/
theorem covers_verbArgument (hcode : ∀ u ∈ code, u ≠ d ∧ u.isLineBreak = false) (rest : Text) :
    Covers { kind := .rawText, length := code.length + 2, text := code } (.verbatim d)
      (d :: (code ++ [d])) rest := by
  refine ⟨⟨d, code ++ [d], rfl, ?_⟩, by simp⟩
  have hbody : (code ++ [d] ++ rest).takeWhile (fun c => c != d && !c.isLineBreak) = code := by
    rw [List.append_assoc, List.takeWhile_append_of_pos (by simpa using hcode),
      List.singleton_append, List.takeWhile_cons_of_neg (by simp), List.append_nil]
  simp only [read, ofVerbatim, hbody]
  rw [List.append_assoc, List.drop_append_length, if_pos (by simp), Nat.add_comm 1]

end Lexeme

/-- The command, its argument and the end of the text. -/
theorem remaining_verb (hd : d.DelimitsVerb) (hcode : ∀ u ∈ code, u ≠ d ∧ u.isLineBreak = false)
    (keep : Bool) :
    ∃ command raw last : Token,
      (Text.cursor (verbSource d code) keep).remaining = [command, raw, last] ∧
        command.kind = .command ∧ command.text = "verb" ∧ raw.kind = .rawText ∧ raw.text = code ∧
        last.kind = .endOfFile := by
  have htokens : ∃ command raw last : Token,
      Text.tokens (verbSource d code) keep = [command, raw, last] ∧
        command.kind = .command ∧ command.text = "verb" ∧ raw.kind = .rawText ∧ raw.text = code ∧
        last.kind = .endOfFile := by
    rw [Text.tokens_eq_tokensFrom, verbSource,
      Text.tokensFrom_of_covers (Lexeme.covers_verb hd (code ++ [d])) (by simp),
      ← List.append_nil (d :: (code ++ [d])),
      Text.tokensFrom_of_covers (Lexeme.covers_verbArgument hcode []) (by simp), Text.tokensFrom]
    exact ⟨_, _, _, rfl, rfl, rfl, rfl, rfl, rfl⟩
  obtain ⟨command, raw, last, htokens, hkinds⟩ := htokens
  refine ⟨command, raw, last, ?_, hkinds⟩
  rw [Text.cursor, htokens]
  exact Cursor.remaining_ofTokens (by simp)

namespace Parse.State

variable {ctx : Context} {s : State} {i : OpenInline} {command raw last : Token}

/-- The command is no heading, no formatting command, and nowhere dropped. -/
theorem lookup_verb : headingLevel? "verb" = none ∧ droppedArgumentCount? "verb" = none ∧
    InlineStyle.ofCommand? "verb" = none ∧ tableRuleArgumentCount? "verb" = none := by
  decide

/-- In any inline content the command with its argument is code. -/
theorem takeToken_verb (hk : s.cursor.current.kind = .command)
    (ht : s.cursor.current.text = "verb") (hraw : s.cursor.advance.current.kind = .rawText) :
    s.takeToken ctx i = .ok (s.gather i s.cursor.advance.advance (i.run.fragments.push
      (.code (.span s.cursor.current.start s.cursor.advance.current.stop)
        s.cursor.advance.current.text))) := by
  obtain ⟨hheading, hdropped, hstyle, hrule⟩ := lookup_verb
  have hcount : i.droppedCount? "verb" = none := by
    rw [OpenInline.droppedCount?, hdropped, hrule, ite_self]
    rfl
  have hnames : ∀ name ∈ (["newline", "href", "url"] : List Text),
      (Text.ofString "verb" = name) = False := by decide
  have hcommand : s.takeToken ctx i = s.takeCommand ctx i := by
    simp only [takeToken, Cursor.marker, hk]
  rw [hcommand]
  simp only [takeCommand, Cursor.marker, Marker.text, ht, hheading, hcount, hstyle,
    Option.isSome_none, Bool.false_eq_true, if_false, hnames _ (.head _),
    hnames _ (.tail _ (.head _)), hnames _ (.tail _ (.tail _ (.head _))), true_or, if_true,
    takeVerbatim, hraw]

/-- Between blocks the command begins a paragraph. -/
theorem beginBlock_verb (hk : s.cursor.current.kind = .command)
    (ht : s.cursor.current.text = "verb") : s.beginBlock ctx = s.beginParagraph ctx := by
  obtain ⟨hheading, hdropped, -, hrule⟩ := lookup_verb
  have hitem : s.cursor.current.text ≠ "item" := by
    rw [ht]
    decide
  have hcount : s.droppedCount? "verb" = none := by
    rw [droppedCount?, hdropped, hrule, ite_self]
    rfl
  simp only [beginBlock, hk, takeBlockCommand_of_ne_item hitem, takeOtherCommand, ht, hheading,
    hcount]

/-- Where a paragraph ends behind the argument, the command and its argument are one. -/
theorem leads_verb (ctx : Context) (hi : s.inline? = none) (hk : s.cursor.current.kind = .command)
    (ht : s.cursor.current.text = "verb") (hraw : s.cursor.advance.current.kind = .rawText)
    (hend : Surround.endsAt s.inList s.cursor.advance.advance.current .paragraph = true) :
    ∃ info info', Leads ctx s (s.past s.cursor.advance.advance
      [.paragraph info [.code info' s.cursor.advance.current.text]]) := by
  have hheading : headingLevel? s.cursor.current.text = none := ht ▸ lookup_verb.1
  have hitem : (s.cursor.current.text == "item") = false := by
    rw [ht]
    decide
  have hends : Surround.endsAt s.inList s.cursor.current .paragraph = false := by
    simp only [Surround.endsAt, hk, hheading, hitem, Option.isSome_none, Bool.and_false,
      Bool.or_false]
  have hstart : Leads ctx s (s.inLine (.paragraph s.cursor.current.start) s.cursor {}) :=
    .of_paragraph_start hi (by simp [Token.isSpacing, Token.isBlankText, hk]) hends
      (beginBlock_verb hk ht)
  have htake : Leads ctx (s.inLine (.paragraph s.cursor.current.start) s.cursor {}) _ :=
    .of_takeToken rfl hends (takeToken_verb hk ht hraw)
  exact ⟨_, _, hstart.trans (htake.trans (Leads.of_paragraph_end hi hend))⟩

end Parse.State

/-! ## The output -/

namespace CodeSpans

open Markdown

variable {options : Options} {settings : Settings}

/-- By itself it is a paragraph of one code, and nothing is said about it. -/
theorem outcomeOf_verb (hd : d.DelimitsVerb) (hcode : ∀ u ∈ code, u ≠ d ∧ u.isLineBreak = false)
    (settings : Settings) :
    ∃ info info', Parse.outcomeOf settings (verbSource d code)
      = .ok ([.paragraph info [.code info' code]], []) := by
  obtain ⟨command, raw, last, hr, hk, ht, hraw, htext, hlast⟩ :=
    remaining_verb hd hcode settings.keepComments
  have hr₁ := Cursor.remaining_advance hr (by simp) (by simp [hk])
  have hr₂ := Cursor.remaining_advance hr₁ (by simp) (by simp [hraw])
  have hc := Cursor.current_of_remaining hr
  have hc₁ := Cursor.current_of_remaining hr₁
  have hc₂ := Cursor.current_of_remaining hr₂
  obtain ⟨info, info', hlead⟩ := Parse.State.leads_verb
    (s := .initial settings (verbSource d code)) (.of settings (verbSource d code)) rfl (hc ▸ hk)
    (hc ▸ ht) (hc₁ ▸ hraw) (by simp [Parse.State.initial, Parse.Surround.endsAt, hc₂, hlast])
  have houtcome := hlead.outcomeOf_eq rfl rfl
    (by rw [Parse.State.cursor_past, Parse.State.initial, hc₂, hlast])
  refine ⟨info, info', houtcome.trans ?_⟩
  rw [Parse.State.initial, hc₁, htext]
  rfl

/-- What is written of it is the code span. -/
theorem convertWithDiagnostics_verb (hsettings : options.resolve = .ok settings)
    (hd : d.DelimitsVerb) (hcode : ∀ u ∈ code, u ≠ d ∧ u.isLineBreak = false) :
    convertWithDiagnostics (verbSource d code) options = .ok ⟨codeSpan code, []⟩ := by
  obtain ⟨info, info', houtcome⟩ := outcomeOf_verb hd hcode settings
  rw [Concatenation.convertWithDiagnostics_of_outcomeOf hsettings houtcome]
  refine Concatenation.written_eq_ok_iff.mpr ⟨rfl, ?_⟩
  simp [blocksLines, blockLines, inlineLines, inlineText, spanText, Text.join_splitOn]

/-- The argument of a `\verb` that stands by itself comes out as a code span, with nothing to
report.  That reads back to the argument just when the argument is not empty. -/
theorem convert_verb (hsettings : options.resolve = .ok settings) (hd : d.DelimitsVerb)
    (hcode : ∀ u ∈ code, u ≠ d ∧ u.isLineBreak = false) :
    ∃ output, convertWithDiagnostics (verbSource d code) options = .ok ⟨output, []⟩ ∧
      (ReadsBack output code ↔ code ≠ []) :=
  ⟨codeSpan code, convertWithDiagnostics_verb hsettings hd hcode, readsBack_codeSpan⟩

theorem delimitsVerb_bar : CodeUnit.DelimitsVerb 0x7C := ⟨rfl, by decide, rfl, rfl⟩

/-- Backticks at both edges and in between, a percent sign and a brace. -/
theorem convert_verb_sample :
    let code : Text := "`a```%\x7b ``"
    CodeUnit.DelimitsVerb 0x7C ∧ (∀ u ∈ code, u ≠ 0x7C ∧ u.isLineBreak = false) ∧
      ∃ output, convertWithDiagnostics (verbSource 0x7C code) {} = .ok ⟨output, []⟩ ∧
        (ReadsBack output code ↔ code ≠ []) := by
  intro code
  have hcode : ∀ u ∈ code, u ≠ 0x7C ∧ u.isLineBreak = false := by decide
  exact ⟨delimitsVerb_bar, hcode, convert_verb rfl delimitsVerb_bar hcode⟩

/-- Not every argument is read back: the empty one is not. -/
theorem not_forall_readsBack :
    ¬ ∀ (d : CodeUnit) (code : Text), d.DelimitsVerb →
      (∀ u ∈ code, u ≠ d ∧ u.isLineBreak = false) →
      ∃ output diagnostics,
        convertWithDiagnostics (verbSource d code) {} = .ok ⟨output, diagnostics⟩ ∧
          ReadsBack output code := by
  intro hall
  have hcode : ∀ u ∈ ([] : Text), u ≠ 0x7C ∧ u.isLineBreak = false := by simp
  obtain ⟨output, diagnostics, hconvert, hreads⟩ := hall 0x7C [] delimitsVerb_bar hcode
  rw [convertWithDiagnostics_verb rfl delimitsVerb_bar hcode] at hconvert
  cases hconvert
  exact readsBack_codeSpan.mp hreads rfl

end CodeSpans

end LatexMarkdown
