import LatexMarkdown.Proofs.Lexemes
import LatexMarkdown.Proofs.Running
/-!
  Where a run stands in its source.

  `Parse.Faces` ties a cursor to the text that it has before it.  A lexeme at the front of that text
  is the current token, and behind it the cursor faces the rest (`Faces.of_covers`), so a run over a
  known text needs no offsets and no token lists.
-/
namespace LatexMarkdown

namespace Parse

/-- The cursor stands where the text is left of the source. -/
def Faces (ctx : Context) (m : LineMark) (c : Cursor) (t : Text) : Prop :=
  ∃ offset, c.remaining = t.tokensFrom ctx.settings.keepComments .normal m offset ∧
    ctx.source.toList.drop offset = t

variable {ctx : Context} {m : LineMark} {c : Cursor}

/-- What stands at a cursor that faces a lexeme. -/
structure Meets (ctx : Context) (m : LineMark) (x : Lexeme) (span rest : Text) (c : Cursor) :
    Prop where
  kind : c.current.kind = x.kind
  text : c.current.text = x.text
  malformed : c.current.flags.malformed = x.flags.malformed
  blankLine : c.current.flags.blankLine = (x.kind == .newLine && !m.hasContent)
  spelling : ctx.source.spelling c.current = span
  ahead : c.ahead = c.current :: c.ahead.tail
  faces : Faces ctx (m.after x) c.advance rest

theorem Faces.of_covers {x : Lexeme} (span : Text) {rest : Text} (h : Faces ctx m c (span ++ rest))
    (hx : x.Covers .normal span rest) (hk : x.kind ≠ .comment) (hmode : x.mode = .normal) :
    Meets ctx m x span rest c := by
  obtain ⟨offset, hr, hs⟩ := h
  rw [Text.tokensFrom_of_covers hx hk, hmode] at hr
  have hcur := Cursor.current_of_remaining hr
  have hts := Text.tokensFrom_ne_nil ctx.settings.keepComments .normal (m.after x)
    (offset + span.length) rest
  have hkind : (x.toToken m offset).kind ≠ .endOfFile := by
    obtain ⟨⟨u, tail, -, hread⟩, -⟩ := hx
    rw [← hread]
    exact Lexeme.kind_read_ne_endOfFile _ _ _
  obtain ⟨ts, hahead, -⟩ := Cursor.ahead_of_remaining hr hts
  refine ⟨by rw [hcur]; rfl, by rw [hcur]; rfl, by rw [hcur]; rfl, by rw [hcur]; rfl, ?_, ?_,
    offset + span.length, Cursor.remaining_advance hr hts hkind, ?_⟩
  · have hlen : offset + x.length - offset = span.length := by
      rw [hx.length_eq]
      omega
    rw [hcur, Source.spelling, Lexeme.toToken, Array.toList_extract, List.extract_eq_take_drop, hs, hlen,
      List.take_append_length]
  · rw [hahead, hcur, List.tail_cons]
  · rw [← List.drop_drop, hs, List.drop_append_length]

/-- A run of text in front of something that is no text. -/
theorem Faces.run {run rest : Text} (h : Faces ctx m c (run ++ rest)) (hne : run ≠ [])
    (hrun : ∀ u ∈ run, CodeUnit.isPlain u = true)
    (hrest : ∀ u ∈ rest.head?, CodeUnit.isPlain u = false) :
    Meets ctx m { kind := .text, length := run.length, text := run } run rest c :=
  h.of_covers run (Lexeme.covers_run hne hrun hrest) (by simp) rfl

theorem Faces.lineFeed {rest : Text} (h : Faces ctx m c (0x0A :: rest)) :
    Meets ctx m { kind := .newLine, length := 1, text := [0x0A] } [0x0A] rest c :=
  of_covers [0x0A] h (Lexeme.covers_lineFeed rest) (by simp) rfl

theorem Faces.lineBreak {rest : Text} (h : Faces ctx m c (0x5C :: 0x5C :: rest)) :
    Meets ctx m { kind := .lineBreak, length := 2, text := [0x5C, 0x5C] } [0x5C, 0x5C] rest c :=
  of_covers [0x5C, 0x5C] h (Lexeme.covers_lineBreak rest) (by simp) rfl

theorem Faces.single (kind : TokenKind) {u : CodeUnit} {rest : Text}
    (h : Faces ctx m c (u :: rest)) (hu : Lexeme.singleKind? u = some kind)
    (hk : kind ≠ .comment := by decide) :
    Meets ctx m { kind, length := 1, text := [u] } [u] rest c :=
  of_covers [u] h (Lexeme.covers_single hu rest) hk rfl

/-- A command in front of something that is not part of its name. -/
theorem Faces.command {name rest : Text} (h : Faces ctx m c (0x5C :: (name ++ rest)))
    (hne : name ≠ []) (hname : ∀ u ∈ name, CodeUnit.isLetter u = true) (hbegin : name ≠ "begin")
    (hend : name ≠ "end") (hverb : name ≠ "verb")
    (hrest : ∀ u ∈ rest.head?, CodeUnit.isLetter u = false ∧ u ≠ 0x2A) :
    Meets ctx m { kind := .command, length := 1 + name.length, text := name } (0x5C :: name) rest
      c :=
  of_covers (0x5C :: name) h (Lexeme.covers_command hne hname hbegin hend hverb hrest) (by simp) rfl

theorem Faces.marker (ends : Bool) {name rest : Text}
    (h : Faces ctx m c (Lexeme.spellMarker ends name ++ rest)) (hne : name ≠ [])
    (hname : ∀ u ∈ name, CodeUnit.isEnvironmentName u = true) (hraw : name ∉ rawEnvironments) :
    Meets ctx m { kind := Lexeme.markerKind ends,
                  length := (Lexeme.markerCommand ends).length + name.length + 3, text := name }
      (Lexeme.spellMarker ends name) rest c :=
  of_covers _ h (Lexeme.covers_marker ends hne hname hraw rest) (by cases ends <;> simp [Lexeme.markerKind]) rfl

theorem Faces.endOfFile (h : Faces ctx m c []) : c.current.kind = .endOfFile := by
  obtain ⟨offset, hr, -⟩ := h
  rw [Text.tokensFrom] at hr
  rw [Cursor.current_of_remaining hr]
  rfl

/-- Without an opening bracket in the source no optional argument follows. -/
theorem Faces.startArgument? {t : Text} (h : Faces ctx m c t) (hb : 0x5B ∉ ctx.source.toList) :
    startArgument? .bracketOpen c = none := by
  obtain ⟨offset, hr, hs⟩ := h
  replace hb : 0x5B ∉ t := fun hmem => hb (List.mem_of_mem_drop (hs ▸ hmem))
  apply if_neg
  apply Text.kind_ne_bracketOpen hb ctx.settings.keepComments .normal m offset
  rw [← hr]
  exact c.lookahead_mem_remaining _

/-- A run begins at the front of its source. -/
theorem faces_initial (settings : Settings) (source : Text) :
    Faces (.of settings source) {} (State.initial settings source).cursor source := by
  refine ⟨0, ?_, by simp [Context.of]⟩
  rw [State.initial, Text.cursor, Text.tokens_eq_tokensFrom,
    Cursor.remaining_ofTokens (Text.tokensFrom_ne_nil _ _ _ _ _)]
  rfl

end Parse

end LatexMarkdown
