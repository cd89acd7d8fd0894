import LatexMarkdown.Proofs.Making.Change
import LatexMarkdown.Proofs.Spans
import LatexMarkdown.Proofs.Spans.Reading
import Mathlib.Data.List.DropRight
/-!
  Mathematics is kept as it is spelled.

  Main statement: `mathematics_of_parseDocument`.  In a document that is read from a source without
  comments, every node of mathematics spans its two delimiters and the body between them, and its text
  is that body, tidied at the edges.

  Two facts carry this.  The token of a delimiter or of an environment marker is spelled by the units
  that it spans (`Text.spells_tokens`).  And without comments tokens lie end to end, so the pieces that
  a body is put together from are one slice of the source, up to the token that closes it
  (`exists_of_textUpTo?`) or up to the middle of a double dollar (`verbatim_readDollars`).
-/
namespace LatexMarkdown

/-! ## How delimiters are spelled -/

/-- A marker of an environment: its command, space, and the name in braces. -/
def Text.IsMarker (t command name : Text) : Prop :=
  ∃ space, (∀ u ∈ space, CodeUnit.isLineSpace u = true) ∧
    t = 0x5C :: (command ++ (space ++ 0x7B :: (name ++ [0x7D])))

/-- What is known of the units that a token spans from its kind and payload: delimiters are their own
spelling, markers have their name in them, and comments begin with the percent sign. -/
def TokenKind.Spells (kind : TokenKind) (text span : Text) : Prop :=
  match kind with
  | .mathInline => text ∈ (["$", "\\(", "\\)"] : List Text) ∧ span = text
  | .mathDisplay => text ∈ (["$$", "\\[", "\\]"] : List Text) ∧ span = text
  | .envBegin => span.IsMarker "begin" text
  | .envEnd => span.IsMarker "end" text
  | .comment => span.head? = some 0x25
  | _ => True

namespace Lexeme

/-- The lexeme is spelled by the units at the front of a text. -/
def Spells (x : Lexeme) (t : Text) : Prop := x.kind.Spells x.text (t.take x.length)

theorem spells_ofMarker? {name after : Text} {x : Lexeme} (h : ofMarker? name after = some x) :
    x.Spells (0x5C :: (name ++ after)) := by
  have hspan : ∀ {environment : Text} {n : Nat}, environmentName? after = some (environment, n) →
      Text.IsMarker ((0x5C :: (name ++ after)).take (1 + name.length + n)) name environment := by
    intro environment n henv
    obtain ⟨space, rest, rfl, rfl, -, hspace, -⟩ := environmentName?_eq_some_iff.mp henv
    refine ⟨space, hspace, ?_⟩
    have hlen : 1 + name.length + (space.length + environment.length + 2)
        = (0x5C :: (name ++ (space ++ 0x7B :: (environment ++ [0x7D])))).length := by
      simp only [List.length_cons, List.length_append, List.length_nil]
      omega
    have hshape : 0x5C :: (name ++ (space ++ 0x7B :: (environment ++ 0x7D :: rest)))
        = 0x5C :: (name ++ (space ++ 0x7B :: (environment ++ [0x7D]))) ++ rest := by simp
    rw [hlen, hshape, List.take_append_length]
  unfold ofMarker? at h
  split at h
  · next hname =>
    subst hname
    obtain ⟨⟨environment, n⟩, henv, rfl⟩ := Option.map_eq_some_iff.mp h
    exact hspan henv
  · split at h
    · next hname =>
      subst hname
      obtain ⟨⟨environment, n⟩, henv, rfl⟩ := Option.map_eq_some_iff.mp h
      exact hspan henv
    · cases h

theorem spells_ofEscape (t : Text) : (ofEscape t).Spells (0x5C :: t) := by
  unfold ofEscape
  split
  · exact trivial
  · next c rest =>
    split
    · -- A command is a marker or spells no delimiter.
      simp only [ofCommand]
      split
      · next marker hmarker =>
        have hspells := spells_ofMarker? hmarker
        obtain ⟨after, hafter⟩ := commandName_prefix (c :: rest)
        have hdrop : (c :: rest).drop (commandName (c :: rest)).length = after := by
          have hlen : (commandName (c :: rest) ++ after).drop (commandName (c :: rest)).length = after :=
            List.drop_left
          rwa [hafter] at hlen
        rwa [hdrop, hafter] at hspells
      · exact trivial
    split
    · exact trivial
    split
    · next hc =>
      have hspells : ∀ v ∈ ([0x28, 0x29] : Text), [0x5C, v] ∈ (["$", "\\(", "\\)"] : List Text) := by
        decide
      exact ⟨hspells c (by simpa using hc), rfl⟩
    split
    · next hc =>
      have hspells : ∀ v ∈ ([0x5B, 0x5D] : Text), [0x5C, v] ∈ (["$$", "\\[", "\\]"] : List Text) := by
        decide
      exact ⟨hspells c (by simpa using hc), rfl⟩
    split
    · exact trivial
    split <;> exact trivial

theorem spells_ofMarkup (u : CodeUnit) (rest : Text) : (ofMarkup u rest).Spells (u :: rest) := by
  unfold ofMarkup
  cases hc : Category.ofUnit u
  case escape =>
    rw [eq_of_category_escape hc]
    exact spells_ofEscape rest
  case mathShift =>
    have hu : u = 0x24 := by
      unfold Category.ofUnit at hc
      split at hc <;> simp_all
    subst hu
    simp only
    split
    · next hhead =>
      obtain ⟨after, rfl⟩ := List.head?_eq_some_iff.mp hhead
      have hspells : ([0x24, 0x24] : Text) ∈ (["$$", "\\[", "\\]"] : List Text) := by decide
      exact ⟨hspells, rfl⟩
    · exact ⟨by decide, rfl⟩
  case comment =>
    have hu : u = 0x25 := by
      unfold Category.ofUnit at hc
      split at hc <;> simp_all
    subst hu
    show List.head? ((0x25 :: rest).take (1 + _)) = some 0x25
    rw [Nat.add_comm, List.take_succ_cons]
    rfl
  all_goals exact trivial

theorem spells_read (mode : Mode) (u : CodeUnit) (rest : Text) :
    (read mode u rest).Spells (u :: rest) := by
  cases mode with
  | normal => exact spells_ofMarkup u rest
  | rawText environment =>
    simp only [read, ofRawBody]
    split
    · exact spells_ofMarkup u rest
    · exact trivial
    · exact trivial
  | verbatim d =>
    simp only [read, ofVerbatim]
    split <;> exact trivial

end Lexeme

namespace Text

theorem spells_tokensFrom {source : Text} (keep : Bool) (mode : Mode) (m : LineMark) (offset : Nat)
    (t : Text) (hdrop : source.drop offset = t) :
    ∀ tok ∈ t.tokensFrom keep mode m offset,
      tok.kind.Spells tok.text (source.slice tok.start tok.stop) := by
  fun_induction tokensFrom keep mode m offset t with
  | case1 mode m offset =>
    intro tok htok
    rw [List.mem_singleton.mp htok]
    exact trivial
  | case2 mode m offset u rest x hc n ih => exact ih (by rw [← hdrop, List.drop_drop])
  | case3 mode m offset u rest x hc ih =>
    intro tok htok
    rcases List.mem_cons.mp htok with rfl | htok
    · have hspells : x.Spells (u :: rest) := Lexeme.spells_read mode u rest
      have hspan : source.slice offset (offset + x.length) = (u :: rest).take x.length := by
        rw [slice, hdrop, Nat.add_sub_cancel_left]
      show x.kind.Spells x.text (source.slice offset (offset + x.length))
      rw [hspan]
      exact hspells
    · exact ih (by rw [← hdrop, List.drop_drop]) tok htok

/-- Tokens of delimiters, markers and comments are spelled by the units that they span. -/
theorem spells_tokens (source : Text) (keep : Bool) :
    ∀ tok ∈ source.tokens keep, tok.kind.Spells tok.text (source.slice tok.start tok.stop) := by
  rw [tokens_eq_tokensFrom]
  exact spells_tokensFrom keep .normal {} 0 source rfl

end Text

/-! ## Slices between tokens -/

/-- Trimming at the front stops at something other than space. -/
theorem Text.head?_trimStart (t : Text) : ∀ u ∈ t.trimStart.head?, u.isUnicodeSpace = false := by
  intro u hu
  have hhead := List.head?_dropWhile_not CodeUnit.isUnicodeSpace t
  rw [show t.dropWhile CodeUnit.isUnicodeSpace = t.trimStart from rfl, hu] at hhead
  simpa using hhead

/-- Trimming at the end leaves the front. -/
theorem Text.trimEnd_isPrefix (t : Text) : t.trimEnd <+: t :=
  List.reverse_suffix.mp (by rw [trimEnd, List.reverse_reverse]; exact List.dropWhile_suffix _)

theorem Text.head?_trim (t : Text) : ∀ u ∈ t.trim.head?, u.isUnicodeSpace = false := by
  intro u hu
  obtain ⟨rest, hrest⟩ := List.head?_eq_some_iff.mp hu
  obtain ⟨back, hback⟩ : t.trim <+: t.trimStart := t.trimStart.trimEnd_isPrefix
  exact t.head?_trimStart u (by rw [← hback, hrest]; rfl)

/-- Space at the edges is trimmed at once. -/
theorem Text.trim_trim (t : Text) : t.trim.trim = t.trim := by
  have hend : t.trim.trimEnd = t.trim := by
    rw [trim, trimEnd, trimEnd, List.reverse_reverse, List.dropWhile_idempotent]
  have hstart : t.trim.trimStart = t.trim := by
    cases htrim : t.trim with
    | nil => rfl
    | cons u rest => exact List.dropWhile_cons_of_neg (by simp [t.head?_trim u (by simp [htrim])])
  rw [trim, hstart, hend]

namespace Parse

open Cursor (Reaches)

variable {settings : Settings} {source : Text} {c d : Cursor}

theorem spelling_eq_slice (source : Text) (t : Token) :
    Source.spelling source.toArray t = source.slice t.start t.stop := by
  simp only [Source.spelling, Array.toList_extract, List.extract_eq_take_drop, Text.slice]

/-- A cursor on its way through a source. -/
abbrev On (settings : Settings) (source : Text) (c : Cursor) : Prop :=
  (source.cursor settings.keepComments).Reaches c

namespace On

theorem tiled (h : On settings source c) : Tiled source settings.keepComments c :=
  (Tiled.initial settings source).reaches h

theorem current_mem (h : On settings source c) :
    c.current ∈ source.tokens settings.keepComments := by
  have hplaced := (Nesting.Placed.initial settings source).reaches
    (State.terminated_initial settings source) h
  exact List.mem_of_getElem? hplaced.listed_marker

theorem spells (h : On settings source c) :
    c.current.kind.Spells c.current.text (source.slice c.current.start c.current.stop) :=
  source.spells_tokens settings.keepComments _ h.current_mem

theorem advance (h : On settings source c) : On settings source c.advance :=
  h.trans (.advance c)

variable (hpercent : 0x25 ∉ source)

include hpercent

/-- Without comments nothing lies between two tokens. -/
theorem start_eq (h : On settings source c) : c.current.start = c.lastStop := by
  have hgap := h.tiled.gap
  have hcomments := hgap.comments
  have hnil : source.slice c.lastStop c.current.start = [] := by
    cases hslice : source.slice c.lastStop c.current.start with
    | nil => rfl
    | cons u rest =>
      rw [hslice] at hcomments
      cases hcomments
      have hmem : (0x25 : CodeUnit) ∈ source.slice c.lastStop c.current.start := by
        rw [hslice]
        exact List.mem_cons_self
      exact absurd (List.mem_of_mem_drop (List.mem_of_mem_take hmem)) hpercent
  have hlen := congrArg List.length hnil
  have hle := hgap.le
  have hstop := Nat.le_trans h.tiled.start_le_stop h.tiled.stop_le
  rw [Text.slice, List.length_take, List.length_drop, List.length_nil] at hlen
  omega

theorem kind_ne_comment (h : On settings source c) : c.current.kind ≠ .comment := by
  intro hk
  have hspells := h.spells
  rw [hk] at hspells
  have hmem := List.mem_of_mem_head? hspells
  exact hpercent (List.mem_of_mem_drop (List.mem_of_mem_take hmem))

/-- A token that is passed adds the units that it spans. -/
theorem slice_advance (h : On settings source c) (hk : c.current.kind ≠ .endOfFile) {start : Nat}
    (hstart : start ≤ c.lastStop) :
    source.slice start c.lastStop ++ source.slice c.current.start c.current.stop
      = source.slice start c.advance.lastStop := by
  have hle := h.tiled.start_le_stop
  rw [lastStop_advance hk, ← h.start_eq hpercent]
  rw [← h.start_eq hpercent] at hstart
  exact Text.slice_append_slice hstart hle

theorem raw_eq (h : On settings source c) : Source.raw source.toArray c.current
    = source.slice c.current.start c.current.stop := by
  rw [Source.raw, if_neg (h.kind_ne_comment hpercent), spelling_eq_slice]

end On

/-- The text up to a closing token is the slice of the source up to there. -/
theorem exists_of_textUpTo? (hpercent : 0x25 ∉ source) (hc : On settings source c)
    {closes : Token → Bool} {text : Text} {n : Nat}
    (h : textUpTo? source.toArray closes c.ahead = some (text, n)) :
    ∃ d, On settings source d ∧ c.Reaches d ∧ closes d.current = true ∧
      d.current.kind ≠ .endOfFile ∧ text = source.slice c.lastStop d.lastStop ∧
      c.advanceBy n = d.advance := by
  induction hl : c.ahead generalizing c text n with
  | nil => rw [hl] at h; cases h
  | cons t rest ih =>
    rw [hl, textUpTo?] at h
    split at h
    · cases h
    next hk =>
    have hcurrent := Cursor.current_of_ahead hl
    have hahead := Cursor.ahead_advance hl hk
    rw [← hcurrent] at hk h
    split at h
    · next hcloses =>
      cases Option.some.inj h
      exact ⟨c, hc, .refl c, hcloses, hk, (Text.slice_self source c.lastStop).symm, rfl⟩
    · obtain ⟨⟨text, n⟩, hrest, heq⟩ := Option.map_eq_some_iff.mp h
      cases heq
      obtain ⟨d, hd, hreach, hcloses, hkd, rfl, hadvance⟩ := ih hc.advance (hahead ▸ hrest) hahead
      refine ⟨d, hd, (Reaches.advance c).trans hreach, hcloses, hkd, ?_, hadvance⟩
      have hstep := hc.slice_advance hpercent hk (Nat.le_refl _)
      rw [Text.slice_self, List.nil_append] at hstep
      have hle : c.lastStop ≤ c.advance.lastStop := hc.tiled.lastStop_le_lastStop (.advance c)
      have hle' := hc.advance.tiled.lastStop_le_lastStop hreach
      rw [hc.raw_eq hpercent, hstep, Text.slice_append_slice hle hle']

/-! ## Nodes of mathematics -/

/-- The delimiters of mathematics in inline content. -/
def mathDelimiters : List (Text × Text) :=
  [("$", "$"), ("$$", "$$"), ("\\(", "\\)"), ("\\[", "\\]")]

/-- The delimiters of mathematics between blocks. -/
def displayDelimiters : List (Text × Text) := [("$$", "$$"), ("\\[", "\\]")]

/-- A delimiter of mathematics stands at an offset: a token does, or, for a single dollar, the second
half of a double one. -/
def DelimiterAt (settings : Settings) (source delimiter : Text) (offset : Nat) : Prop :=
  ∃ t ∈ source.tokens settings.keepComments, (t.kind = .mathInline ∨ t.kind = .mathDisplay) ∧
    ((t.start = offset ∧ t.text = delimiter) ∨
      (t.start + 1 = offset ∧ t.text = "$$" ∧ delimiter = "$"))

end Parse

open Parse (mathDelimiters displayDelimiters DelimiterAt)

/-- Inline mathematics spans the delimiter that opens it, a body, and the delimiter that closes it;
its text is the body without space at the edges and with every run of space one space. -/
def Inline.Verbatim (settings : Settings) (source : Text) : Inline → Prop
  | .math i t => ∃ o body c, (o, c) ∈ mathDelimiters ∧ DelimiterAt settings source o i.start ∧
      source.slice i.start i.stop = o ++ body ++ c ∧
      t = body.trim.collapse CodeUnit.isUnicodeSpace
  | _ => True

/-- A block of mathematics spans a pair of display delimiters, or of markers of an environment, and
the body between them; its text is the body without space at the edges, and it has the name of the
environment just when that is one of several lines. -/
def Block.Verbatim (source : Text) : Block → Prop
  | .math i t environment => ∃ o body c, source.slice i.start i.stop = o ++ body ++ c ∧
      t = body.trim ∧
      (((o, c) ∈ displayDelimiters ∧ environment = none) ∨
        ∃ name, o.IsMarker "begin" name ∧ c.IsMarker "end" name ∧
          ((EnvironmentKind.ofName? name = some .alignedMath ∧ environment = some name) ∨
            (EnvironmentKind.ofName? name = some .mathBlock ∧ environment = none)))
  | _ => True

/-- Nodes of mathematics are verbatim. -/
def Node.Verbatim (settings : Settings) (source : Text) : Node → Prop
  | .inline n => n.Verbatim settings source
  | .block b => b.Verbatim source
  | _ => True

namespace Parse

section Reading

variable {settings : Settings} {source : Text} {c d : Cursor} (hpercent : 0x25 ∉ source)

include hpercent

omit hpercent in
/-- A delimiter is spelled by itself. -/
theorem On.slice_delimiter (hc : On settings source c)
    (hk : c.current.kind = .mathInline ∨ c.current.kind = .mathDisplay) :
    source.slice c.current.start c.current.stop = c.current.text := by
  have hspells := hc.spells
  rcases hk with hk | hk <;> rw [hk] at hspells <;> exact hspells.2

/-- Mathematics between a delimiter and the one that closes it. -/
theorem exists_of_readMath (hc : On settings source c)
    (hk : c.current.kind = .mathInline ∨ c.current.kind = .mathDisplay) {text : Text}
    (h : readMath source.toArray c = .ok (text, d)) :
    ∃ body, source.slice c.current.start d.lastStop
        = c.current.text ++ body ++ mathCloser c.current.text ∧ text = body.trim := by
  have heof : c.current.kind ≠ .endOfFile := by rcases hk with hk | hk <;> simp [hk]
  have hahead : c.advance.ahead = c.ahead.tail := by simp [Cursor.advance, heof]
  have hstart := hc.start_eq hpercent
  have hle : c.lastStop ≤ c.advance.lastStop := hc.tiled.lastStop_le_lastStop (.advance c)
  have hopen := hc.slice_advance hpercent heof (Nat.le_refl _)
  rw [Text.slice_self, List.nil_append, hc.slice_delimiter hk] at hopen
  simp only [readMath] at h
  split at h
  · next body n hread =>
    cases Except.ok.inj h
    obtain ⟨e, he, hreach, hcloses, hke, rfl, hadvance⟩ :=
      exists_of_textUpTo? hpercent hc.advance (hahead ▸ hread)
    simp only [Bool.and_eq_true, beq_iff_eq] at hcloses
    obtain ⟨hkind, htext⟩ := hcloses
    have hle' := hc.advance.tiled.lastStop_le_lastStop hreach
    have hclose := he.slice_advance hpercent hke (Nat.le_trans hle hle')
    rw [he.slice_delimiter (hkind ▸ hk), htext] at hclose
    refine ⟨source.slice c.advance.lastStop e.lastStop, ?_, rfl⟩
    calc source.slice c.current.start (c.advanceBy (n + 1)).lastStop
        = source.slice c.lastStop e.advance.lastStop := by
          rw [hstart, Cursor.advanceBy_succ, hadvance]
      _ = source.slice c.lastStop e.lastStop ++ mathCloser c.current.text := hclose.symm
      _ = c.current.text ++ source.slice c.advance.lastStop e.lastStop
            ++ mathCloser c.current.text := by
          rw [hopen, Text.slice_append_slice hle hle']
  · cases h

omit hpercent in
theorem verbatim_mathSpan {start stop : Nat} {o body c : Text} (hpair : (o, c) ∈ mathDelimiters)
    (hopens : DelimiterAt settings source o start)
    (hslice : source.slice start stop = o ++ body ++ c) :
    ∀ n ∈ mathSpan start stop body, n.Verbatim settings source := by
  intro n hn
  simp only [mathSpan] at hn
  split at hn
  · cases hn
  · rw [List.mem_singleton.mp hn]
    exact ⟨o, body, c, hpair, hopens, hslice, rfl⟩

/-- Mathematics after a dollar.  The pieces so far are the source from behind the dollar up to the
current token; a double dollar closes with its first half and opens with its second. -/
theorem verbatim_readDollars (hc : On settings source c) {opener : Marker} {index n : Nat}
    {pieces : List Text} {spans : List Inline} (hle : opener.token.start ≤ c.lastStop)
    (hopens : DelimiterAt settings source "$" opener.token.start)
    (hpieces : source.slice opener.token.start c.lastStop = "$" ++ pieces.reverse.flatten)
    (hread : readDollars source.toArray opener index pieces c.ahead = .ok (spans, n)) :
    ∀ n ∈ spans, n.Verbatim settings source := by
  have hpair : (Text.ofString "$", Text.ofString "$") ∈ mathDelimiters := by decide
  induction hl : c.ahead generalizing c opener index pieces spans n with
  | nil => rw [hl] at hread; cases hread
  | cons t rest ih =>
    rw [hl, readDollars] at hread
    split at hread
    · cases hread
    next hk =>
    have hcurrent := Cursor.current_of_ahead hl
    have hahead := Cursor.ahead_advance hl hk
    rw [← hcurrent] at hk hread
    have hstart := hc.start_eq hpercent
    have hlast := lastStop_advance hk
    split at hread
    · next hdollar =>
      cases Except.ok.inj hread
      refine verbatim_mathSpan hpair hopens ?_
      rw [← hlast, ← hc.slice_advance hpercent hk hle, hpieces, hc.slice_delimiter (.inl hdollar.1),
        hdollar.2]
    split at hread
    · next hdouble =>
      obtain ⟨⟨behind, n⟩, hrest, hread⟩ := exists_of_bind_ok hread
      cases Except.ok.inj hread
      rw [← hahead] at hrest
      -- The two dollars are the two units of the token.
      have hspelled := hc.slice_delimiter (.inr hdouble.1)
      rw [hdouble.2] at hspelled
      have hstop : c.current.stop = c.current.start + 2 := by
        have hlen := congrArg List.length hspelled
        have hwithin := hc.tiled.stop_le
        have htwo : (Text.ofString "$$").length = 2 := by decide
        rw [Text.slice, List.length_take, List.length_drop, htwo] at hlen
        omega
      have hhalves : source.slice c.current.start (c.current.start + 1) = Text.ofString "$" ∧
          source.slice (c.current.start + 1) c.current.stop = Text.ofString "$" := by
        have hsplit := Text.slice_append_slice (t := source)
          (Nat.le_succ c.current.start) (by omega : c.current.start + 1 ≤ c.current.stop)
        rw [hspelled] at hsplit
        have hlen : (source.slice c.current.start (c.current.start + 1)).length = 1 := by
          have hwithin := hc.tiled.stop_le
          rw [Text.slice, List.length_take, List.length_drop]
          omega
        exact List.append_inj hsplit hlen
      intro k hk'
      rcases List.mem_append.mp hk' with hspan | hbehind
      · refine verbatim_mathSpan hpair hopens ?_ k hspan
        rw [← Text.slice_append_slice (hstart ▸ hle) (Nat.le_succ c.current.start), hstart, hpieces,
          ← hstart, hhalves.1]
      · refine ih hc.advance ?_ ?_ ?_ hrest hahead k hbehind
        · simp only
          omega
        · exact ⟨c.current, hc.current_mem, .inr hdouble.1, .inr ⟨rfl, hdouble.2, rfl⟩⟩
        · rw [hlast]
          exact hhalves.2
    · obtain ⟨⟨spans, n⟩, hrest, hread⟩ := exists_of_bind_ok hread
      cases Except.ok.inj hread
      rw [← hahead] at hrest
      refine ih hc.advance ?_ hopens ?_ hrest hahead
      · exact Nat.le_trans hle (hc.tiled.lastStop_le_lastStop (.advance c))
      · rw [← hc.slice_advance hpercent hk hle, hpieces, hc.raw_eq hpercent]
        simp

/-- Inline mathematics from its opening delimiter on. -/
theorem verbatim_readInlineMath (hc : On settings source c)
    (hk : c.current.kind = .mathInline ∨ c.current.kind = .mathDisplay)
    (hopens : ¬ (c.current.text = "\\)" ∨ c.current.text = "\\]")) {spans : List Inline}
    (h : readInlineMath source.toArray c = .ok (spans, d)) :
    ∀ n ∈ spans, n.Verbatim settings source := by
  have heof : c.current.kind ≠ .endOfFile := by rcases hk with hk | hk <;> simp [hk]
  have hdelimiter : ∀ o : Text, c.current.text = o →
      DelimiterAt settings source o c.current.start := fun o ho =>
    ⟨c.current, hc.current_mem, hk, .inl ⟨rfl, ho⟩⟩
  simp only [readInlineMath] at h
  split at h
  · next hdollar =>
    obtain ⟨⟨spans, n⟩, hread, h⟩ := exists_of_bind_ok h
    cases Except.ok.inj h
    have hahead : c.advance.ahead = c.ahead.tail := by simp [Cursor.advance, heof]
    rw [← hahead] at hread
    refine verbatim_readDollars hpercent hc.advance ?_ (hdelimiter _ hdollar) ?_ hread
    · exact hc.tiled.start_le_lastStop heof (.refl _)
    · rw [lastStop_advance heof]
      exact (hc.slice_delimiter hk).trans (hdollar.trans (List.append_nil _).symm)
  · next hdollar =>
    obtain ⟨⟨text, after⟩, hread, h⟩ := exists_of_bind_ok h
    cases Except.ok.inj h
    obtain ⟨body, hslice, rfl⟩ := exists_of_readMath hpercent hc hk hread
    have hpair : (c.current.text, mathCloser c.current.text) ∈ mathDelimiters := by
      have hspells := hc.spells
      have hmem : c.current.text ∈ (["$$", "\\(", "\\["] : List Text) := by
        rcases hk with hk | hk <;> rw [hk] at hspells <;> have hmem := hspells.1 <;>
          simp only [List.mem_cons, List.not_mem_nil, or_false] at hmem ⊢ <;> tauto
      exact (by decide : ∀ o ∈ (["$$", "\\(", "\\["] : List Text), (o, mathCloser o) ∈ mathDelimiters)
        _ hmem
    -- The body is trimmed a second time, which takes nothing away.
    intro k hk'
    refine verbatim_mathSpan hpair (hdelimiter _ rfl) hslice k ?_
    simpa only [mathSpan, Text.trim_trim, Cursor.marker] using hk'

/-- A block of mathematics that is read all at once. -/
theorem Leaf.verbatim (hc : On settings source c) {b : Block}
    (h : Leaf (.of settings source) c d b) : b.Verbatim source := by
  cases h with
  | code => exact trivial
  | environment aligned hk h hname =>
    have heof : c.current.kind ≠ .endOfFile := by simp [hk]
    obtain ⟨e, he, hreach, hcloses, hke, rfl, hadvance⟩ :=
      exists_of_textUpTo? hpercent hc.advance h
    simp only [Bool.and_eq_true, beq_iff_eq] at hcloses
    have hle : c.lastStop ≤ c.advance.lastStop := hc.tiled.lastStop_le_lastStop (.advance c)
    have hle' := hc.advance.tiled.lastStop_le_lastStop hreach
    have hopen := hc.slice_advance hpercent heof (Nat.le_refl _)
    rw [Text.slice_self, List.nil_append] at hopen
    have hclose := he.slice_advance hpercent hke (Nat.le_trans hle hle')
    refine ⟨source.slice c.current.start c.current.stop,
      source.slice c.advance.lastStop e.lastStop, source.slice e.current.start e.current.stop, ?_,
      rfl, .inr ⟨c.current.text, ?_, ?_, ?_⟩⟩
    · show source.slice c.current.start (c.advance.advanceBy _).lastStop = _
      rw [hadvance, hopen, Text.slice_append_slice hle hle', hclose, hc.start_eq hpercent]
    · have hspells := hc.spells
      rwa [hk] at hspells
    · have hspells := he.spells
      rwa [hcloses.1, hcloses.2] at hspells
    · cases aligned with
      | true => exact .inl ⟨hname, rfl⟩
      | false => exact .inr ⟨hname, rfl⟩
  | display hk h hne hopens =>
    obtain ⟨body, hslice, rfl⟩ := exists_of_readMath hpercent hc (.inr hk) h
    have hpair : ∀ o : Text, (o == "$$" || o == "\\[") = true →
        (o, mathCloser o) ∈ displayDelimiters := by
      intro o ho
      simp only [Bool.or_eq_true, beq_iff_eq] at ho
      rcases ho with rfl | rfl <;> decide
    rw [opensDisplay, Bool.and_eq_true] at hopens
    exact ⟨_, body, _, hslice, rfl, .inl ⟨hpair _ hopens.2, rfl⟩⟩

end Reading

end Parse

/-! ## Documents -/

variable {settings : Settings} {source : Text} {options : Options} {parsed : Parsed}

/-- Inline mathematics is read from a token on; no other node is mathematics. -/
theorem Inline.Made.verbatim (hpercent : 0x25 ∉ source) {n : Inline}
    (h : n.Made settings source) : n.Verbatim settings source := by
  cases h with
  | read hc h hn =>
    cases h with
    | math h hk hopens => exact Parse.verbatim_readInlineMath hpercent hc hk hopens h n hn
    | dropped => cases hn
    | comment =>
      rcases List.mem_cons.mp hn with rfl | hn
      · exact trivial
      · exact List.mem_singleton.mp hn ▸ trivial
    | _ => exact List.mem_singleton.mp hn ▸ trivial
  | _ => exact trivial

/-- Mathematics is kept verbatim.  In a document that is read from a source without a percent sign,
inline mathematics spans the delimiter that it is opened with, a body and the closing delimiter, and
its text is the body, trimmed, every run of space collapsed.  A block of mathematics spans display
delimiters or the markers of an environment around a body, and its text is the body, trimmed; it names
the environment just when that is an aligned one. -/
theorem mathematics_of_parseDocument (hpercent : 0x25 ∉ source)
    (hsettings : options.resolve = .ok settings)
    (h : parseDocument source options = .ok parsed) :
    ∀ n ∈ (Node.document parsed.document).tree.preorder, n.Verbatim settings source := by
  obtain ⟨settings', hresolve, hmade⟩ := allMade_of_parseDocument h
  obtain rfl : settings' = settings := Except.ok.inj (hresolve.symm.trans hsettings)
  intro n hn
  have hn := hmade n hn
  cases n with
  | inline n => exact Inline.Made.verbatim hpercent hn
  | block b =>
    cases b with
    | math i t e =>
      obtain ⟨c, d, hc, hleaf⟩ := hn
      exact hleaf.verbatim hpercent hc
    | _ => exact trivial
  | _ => exact trivial

/-- Two touching spans, display mathematics, and an environment with space in its begin marker. -/
theorem mathematics_of_parseDocument_sample :
    let source : Text := "$a $$b$\n\n\\[x\\]\\begin \x7balign\x7dc\\\\d\\end\x7balign\x7d"
    ∃ parsed, 0x25 ∉ source ∧ ({} : Options).resolve = .ok {} ∧
      parseDocument source {} = .ok parsed ∧
      parsed.document.children.map Block.kind = [.paragraph, .mathBlock, .mathBlock] ∧
      ∀ n ∈ (Node.document parsed.document).tree.preorder, n.Verbatim {} source := by
  intro source
  have hpercent : 0x25 ∉ source := by decide
  have hresolve : ({} : Options).resolve = .ok {} := rfl
  have hread : (Document.parse {} source).map (fun p => p.document.children.map Block.kind)
      = .ok [.paragraph, .mathBlock, .mathBlock] := by decide +kernel
  obtain ⟨parsed, h, hkinds⟩ := exists_of_parse_map hresolve hread
  exact ⟨parsed, hpercent, hresolve, h, hkinds, mathematics_of_parseDocument hpercent hresolve h⟩

end LatexMarkdown
