import LatexMarkdown.Proofs.Mathematics
/-!
  Mathematics without space at its edges.

  Main statement: `tidyMath_of_parseDocument`.  The text of every node of mathematics begins and ends
  with something other than space, as trimming sees it, and inline mathematics has no space in it but
  single spaces.  Inline mathematics and mathematics between delimiters is left out when nothing is
  left of its body; an environment of mathematics is kept whatever its body holds, so its text is
  empty just when that is comments and space.
-/
namespace LatexMarkdown

/-! ## Trimmed and collapsed text -/

namespace Text

/-- No space stands at either end, as trimming sees it. -/
structure Bare (t : Text) : Prop where
  starts : ∀ u ∈ t.head?, u.isUnicodeSpace = false
  ends : ∀ u ∈ t.getLast?, u.isUnicodeSpace = false

/-- All space is single spaces. -/
structure SingleSpaced (t : Text) : Prop where
  space : ∀ u ∈ t, u.isUnicodeSpace = true → u = 0x20
  single : ¬ [0x20, 0x20] <:+: t

/-- Trimming leaves no space at the ends. -/
theorem bare_trim (t : Text) : t.trim.Bare := by
  refine ⟨t.head?_trim, fun u hu => ?_⟩
  exact head?_trimStart t.trimStart.reverse u (by simpa [trim, trimEnd, trimStart] using hu)

/-- Trimming leaves nothing of space, and of nothing else. -/
theorem trim_eq_nil_iff {t : Text} : t.trim = [] ↔ ∀ u ∈ t, u.isUnicodeSpace = true := by
  rw [trim, trimEnd, List.reverse_eq_nil_iff, List.dropWhile_eq_nil_iff]
  constructor
  · intro h
    have hnil : t.trimStart = [] := by
      cases hstart : t.trimStart with
      | nil => rfl
      | cons u rest =>
        have hu := t.head?_trimStart u (by simp [hstart])
        rw [h u (by simp [hstart])] at hu
        cases hu
    exact List.dropWhile_eq_nil_iff.mp hnil
  · exact fun h u hu => h u ((List.dropWhile_sublist _).subset (List.mem_reverse.mp hu))

/-- Text on one line. -/
theorem singleSpaced_collapse (t : Text) : (t.collapse CodeUnit.isUnicodeSpace).SingleSpaced :=
  ⟨fun _ hu hspace => eq_of_mem_collapseFrom hu hspace, not_infix_collapseFrom rfl false t⟩

/-- Collapsing changes neither end of a text that has no space there. -/
theorem Bare.collapse {t : Text} (h : t.Bare) : (t.collapse CodeUnit.isUnicodeSpace).Bare := by
  refine ⟨?_, ?_⟩
  · cases t with
    | nil => simp [Text.collapse, collapseFrom]
    | cons u rest =>
      have hu := h.starts u rfl
      rw [Text.collapse, head_collapseFrom hu]
      simpa using hu
  · rcases List.eq_nil_or_concat t with rfl | ⟨front, u, rfl⟩
    · simp [Text.collapse, collapseFrom]
    · have hu := h.ends u (by simp)
      rw [Text.collapse, List.concat_eq_append, collapseFrom_concat hu]
      simpa using hu

end Text

/-! ## Environments of mathematics -/

/-- A node spans an environment of mathematics with these tokens for its body: they stand between its
begin marker and the first end marker of the same name. -/
def NodeInfo.SpansMathEnvironment (settings : Settings) (source : Text) (i : NodeInfo)
    (body : List Token) : Prop :=
  ∃ before begun ended after,
    source.tokens settings.keepComments = before ++ begun :: (body ++ ended :: after) ∧
    (begun.kind = .envBegin ∧ begun.start = i.start) ∧
    (EnvironmentKind.ofName? begun.text = some .mathBlock ∨
      EnvironmentKind.ofName? begun.text = some .alignedMath) ∧
    (ended.kind = .envEnd ∧ ended.text = begun.text ∧ ended.stop = i.stop) ∧
    ∀ t ∈ body, ¬ (t.kind = .envEnd ∧ t.text = begun.text)

/-- A token with nothing to show: a comment, or one that is spelled by space alone. -/
def Token.ShowsNothing (source : Text) (t : Token) : Prop :=
  t.kind = .comment ∨ ∀ u ∈ source.slice t.start t.stop, u.isUnicodeSpace = true

/-- Inline mathematics has something in it and is on one line, without space at its ends.  A block of
mathematics has no space at its ends, and something in it, unless it spans an environment whose body
has nothing to show. -/
def Node.TidyMath (settings : Settings) (source : Text) : Node → Prop
  | .inline (.math _ t) => t ≠ [] ∧ t.Bare ∧ t.SingleSpaced
  | .block (.math i t _) => t.Bare ∧
      (t ≠ [] ∨ ∃ body, i.SpansMathEnvironment settings source body ∧
        (t = [] ↔ ∀ tok ∈ body, tok.ShowsNothing source))
  | _ => True

namespace Parse

variable {settings : Settings} {source : Text} {c d : Cursor}

/-- The text up to a closing token is put together from the tokens up to there. -/
theorem exists_append_of_textUpTo? {source : Source} {closes : Token → Bool} {ts : List Token}
    {text : Text} {n : Nat} (h : textUpTo? source closes ts = some (text, n)) :
    ∃ body last rest, ts = (body ++ [last]) ++ rest ∧ n = (body ++ [last]).length ∧
      (∀ t ∈ body ++ [last], t.kind ≠ .endOfFile) ∧ closes last = true ∧
      (∀ t ∈ body, closes t = false) ∧ text = body.flatMap source.raw := by
  induction ts generalizing text n with
  | nil => cases h
  | cons t ts ih =>
    rw [textUpTo?] at h
    split at h
    · cases h
    next hk =>
    split at h
    · next hcloses =>
      cases Option.some.inj h
      exact ⟨[], t, ts, rfl, rfl, by simpa using hk, hcloses, by simp, rfl⟩
    · next hcloses =>
      obtain ⟨⟨text, n⟩, hrest, heq⟩ := Option.map_eq_some_iff.mp h
      cases heq
      obtain ⟨body, last, rest, rfl, rfl, hend, hlast, hbody, rfl⟩ := ih hrest
      exact ⟨t :: body, last, rest, rfl, rfl, List.forall_mem_cons.mpr ⟨hk, hend⟩, hlast,
        List.forall_mem_cons.mpr ⟨Bool.eq_false_iff.mpr hcloses, hbody⟩, rfl⟩

/-- Nothing is left of tokens just when each has nothing to show. -/
theorem trim_flatMap_raw_eq_nil_iff {body : List Token} :
    Text.trim (body.flatMap (Source.raw source.toArray)) = [] ↔
      ∀ t ∈ body, t.ShowsNothing source := by
  have hraw (t : Token) : (∀ u ∈ Source.raw source.toArray t, u.isUnicodeSpace = true) ↔
      t.ShowsNothing source := by
    rw [Source.raw, Token.ShowsNothing, spelling_eq_slice]
    split
    · next hk => simp [hk]
    · next hk => simp [hk]
  rw [Text.trim_eq_nil_iff]
  constructor
  · exact fun h t ht => (hraw t).mp fun u hu => h u (List.mem_flatMap_of_mem ht hu)
  · intro h u hu
    obtain ⟨t, ht, hmem⟩ := List.mem_flatMap.mp hu
    exact (hraw t).mpr (h t ht) u hmem

/-- A block of mathematics is tidy. -/
theorem Leaf.tidyMath (hc : On settings source c) {b : Block}
    (h : Leaf (.of settings source) c d b) : (Node.block b).TidyMath settings source := by
  cases h with
  | code => exact trivial
  | environment aligned hk h hname =>
    have heof : c.current.kind ≠ .endOfFile := by simp [hk]
    have hterminated := hc.terminated (source.terminated_cursor settings.keepComments)
    have hplaced := (Nesting.Placed.initial settings source).reaches
      (State.terminated_initial settings source) hc
    obtain ⟨body, ended, after, hahead, rfl, hend, hcloses, hbody, rfl⟩ :=
      exists_append_of_textUpTo? h
    simp only [Bool.and_eq_true, beq_iff_eq] at hcloses
    refine ⟨Text.bare_trim _, .inr ⟨body, ⟨c.passed.reverse, c.current, ended, after ++ [c.final],
      ?_, ⟨hk, rfl⟩, ?_, ⟨hcloses.1, hcloses.2, ?_⟩, ?_⟩, trim_flatMap_raw_eq_nil_iff⟩⟩
    · rw [← hplaced.tokens_eq, Cursor.remaining_eq_cons hterminated heof, Cursor.remaining, hahead]
      simp
    · cases aligned with
      | true => exact .inr hname
      | false => exact .inl hname
    · rw [Cursor.advanceBy_length hahead hend]
      simp [NodeInfo.span, Cursor.past, Cursor.lastStop]
    · intro t ht hsame
      have := hbody t ht
      simp [hsame] at this
  | display hk h hne =>
    refine ⟨?_, .inl hne⟩
    simp only [readMath] at h
    split at h
    · cases Except.ok.inj h
      exact Text.bare_trim _
    · cases h

end Parse

/-! ## Documents -/

variable {settings : Settings} {source : Text} {options : Options} {parsed : Parsed}

/-- Inline mathematics is tidy; no other node is mathematics. -/
theorem Inline.Made.tidyMath {n : Inline} (h : n.Made settings source) :
    (Node.inline n).TidyMath settings source := by
  cases n with
  | math i t =>
    cases h with
    | read hc h hn =>
      cases h with
      | math h hk hopens =>
        obtain ⟨hne, body, rfl⟩ := Parse.isMathSpan_of_readInlineMath h hn
        exact ⟨hne, body.bare_trim.collapse, body.trim.singleSpaced_collapse⟩
      | _ => simp at hn
  | _ => exact trivial

/-- Mathematics is tidy in every document that is read.  Inline mathematics has a text, without space
at its ends and with single spaces only.  A block of mathematics has no space at its ends; it has a
text as well, save for environments with nothing in their body but comments and space. -/
theorem tidyMath_of_parseDocument (hsettings : options.resolve = .ok settings)
    (h : parseDocument source options = .ok parsed) :
    ∀ n ∈ (Node.document parsed.document).tree.preorder, n.TidyMath settings source := by
  obtain ⟨settings', hresolve, hmade⟩ := allMade_of_parseDocument h
  obtain rfl : settings' = settings := Except.ok.inj (hresolve.symm.trans hsettings)
  intro n hn
  have hn := hmade n hn
  cases n with
  | inline n => exact Inline.Made.tidyMath hn
  | block b =>
    cases b with
    | math i t e =>
      obtain ⟨c, d, hc, hleaf⟩ := hn
      exact hleaf.tidyMath hc
    | _ => exact trivial
  | _ => exact trivial

/-- A span over two lines, display mathematics, and an environment with a comment in it. -/
theorem tidyMath_of_parseDocument_sample :
    let source : Text := "$ a\n b $\n\n\\[ c \\]\\begin\x7balign\x7d% d\n \\end\x7balign\x7d"
    let options : Options := { preserveComments := some (.bool true) }
    let settings : Settings := { keepComments := true }
    ∃ parsed, options.resolve = .ok settings ∧ parseDocument source options = .ok parsed ∧
      (Node.document parsed.document).tree.preorder.map Node.kind
        = [.document, .paragraph, .math, .mathBlock, .mathBlock] ∧
      ∀ n ∈ (Node.document parsed.document).tree.preorder, n.TidyMath settings source := by
  intro source options settings
  have hresolve : options.resolve = .ok settings := rfl
  have hread : (Document.parse settings source).map (fun p =>
      (Node.document p.document).tree.preorder.map Node.kind)
        = .ok [.document, .paragraph, .math, .mathBlock, .mathBlock] := by
    decide +kernel
  obtain ⟨parsed, h, hkinds⟩ := exists_of_parse_map hresolve hread
  exact ⟨parsed, hresolve, h, hkinds, tidyMath_of_parseDocument hresolve h⟩

/-- The text of a block of mathematics. -/
def Block.mathText? : Block → Option Text
  | .math _ t _ => some t
  | _ => none

/-- Not every block of mathematics has a text: an equation with nothing in it has none. -/
theorem not_forall_math_ne_nil :
    ¬ ∀ (source : Text) (options : Options) (parsed : Parsed),
      parseDocument source options = .ok parsed →
        ∀ i (t : Text) e, .block (.math i t e) ∈ (Node.document parsed.document).tree.preorder →
          t ≠ [] ∧ t.Bare := by
  intro hall
  let source : Text := "\\begin\x7bequation\x7d\\end\x7bequation\x7d"
  have hread : (Document.parse {} source).map (·.document.children.map Block.mathText?)
      = .ok [some []] := by
    decide +kernel
  have hresolve : ({} : Options).resolve = .ok {} := rfl
  obtain ⟨parsed, h, htexts⟩ := exists_of_parse_map hresolve hread
  obtain ⟨b, rest, hchildren, hb, -⟩ := List.map_eq_cons_iff.mp htexts
  cases b with
  | math i t e =>
    have hmem : Block.math i t e ∈ parsed.document.children := by simp [hchildren]
    exact (hall source {} parsed h i t e (Document.block_mem_preorder hmem)).1 (Option.some.inj hb)
  | _ => cases hb

end LatexMarkdown
