import LatexMarkdown.Proofs.Dropping
import LatexMarkdown.Proofs.Embedding.Lexing
/-!
  Lexemes in front of a percent sign.

  A lexeme that ends before a percent sign, or right at it, is the same whatever stands behind that
  sign (`Lexeme.read_percent_congr`).  Names and markers stop there by themselves.  The other
  lookaheads run on: a comment to the end of its line, a `\verb` to its delimiter, raw text to its end
  marker.  Each of these takes in all that it has looked at, but for the end marker of raw text,
  which has no percent sign in it.
-/
namespace LatexMarkdown

namespace Text

variable {p : CodeUnit → Bool} {v : CodeUnit}

/-- A run that goes on with the unit behind a text, and yet ends within the text, is the same whatever
stands behind the unit. -/
theorem takeWhile_congr (hv : p v = true) {t e : Text}
    (h : ((t ++ v :: e).takeWhile p).length ≤ t.length) (e' : Text) :
    (t ++ v :: e').takeWhile p = (t ++ v :: e).takeWhile p := by
  induction t with
  | nil => simp [hv] at h
  | cons u rest ih =>
    simp only [List.cons_append, List.takeWhile_cons] at h ⊢
    split
    · next hu =>
      simp only [hu, if_true, List.length_cons] at h
      rw [ih (by omega)]
    · rfl

/-- Up to the unit behind a text, each unit is the same whatever stands behind that one. -/
theorem head?_drop_congr {t : Text} {n : Nat} (h : n ≤ t.length) (e e' : Text) :
    ((t ++ v :: e').drop n).head? = ((t ++ v :: e).drop n).head? := by
  rw [List.drop_append_of_le_length h, List.drop_append_of_le_length h]
  cases t.drop n <;> rfl

end Text

namespace Lexeme

/-! ## Markup -/

theorem modeAfter_percent (name after e e' : Text) :
    modeAfter name (after ++ 0x25 :: e') = modeAfter name (after ++ 0x25 :: e) := by
  cases after <;> rfl

theorem ofCommand_percent (t e e' : Text) :
    ofCommand (t ++ 0x25 :: e') = ofCommand (t ++ 0x25 :: e) := by
  have hstop := CodeUnit.stops_percent
  have hle : (commandName t).length ≤ t.length := ( commandName_prefix t).length_le
  simp only [ofCommand, commandName_append_stop hstop, List.drop_append_of_le_length hle,
    ofMarker?_append hstop, modeAfter_percent _ _ e e']

/-- What a backslash begins goes by the unit behind it, unless that is a letter. -/
theorem ofEscape_congr {c : CodeUnit} {t t' : Text} (h : ofCommand (c :: t') = ofCommand (c :: t)) :
    ofEscape (c :: t') = ofEscape (c :: t) := by
  have hspelled : ∀ (kind : TokenKind) (n : Nat) (flags : TokenFlags), n ≤ 2 →
      spelled kind (0x5C :: c :: t') n flags = spelled kind (0x5C :: c :: t) n flags := by
    intro kind n flags hn
    obtain rfl | rfl | rfl : n = 0 ∨ n = 1 ∨ n = 2 := by omega
    all_goals rfl
  simp only [ofEscape, h, hspelled _ 2 _ (Nat.le_refl 2)]
  rw [hspelled .text _ _ (by split <;> omega)]

theorem ofEscape_percent (t e e' : Text) :
    ofEscape (t ++ 0x25 :: e') = ofEscape (t ++ 0x25 :: e) := by
  cases t with
  | nil => exact ofEscape_congr (ofCommand_percent [] e e')
  | cons c t => exact ofEscape_congr (ofCommand_percent (c :: t) e e')

/-- The first two units make out a line break and a dollar sign. -/
theorem breakLength_congr (u w : CodeUnit) (t t' : Text) :
    spelled .newLine (u :: w :: t') (Text.breakLength (u :: w :: t'))
      = spelled .newLine (u :: w :: t) (Text.breakLength (u :: w :: t)) := by
  rw [Text.breakLength_cons_cons, Text.breakLength_cons_cons]
  split
  · rfl
  · split <;> rfl

/-- Markup that ends before a percent sign is read the same whatever stands behind the sign. -/
theorem ofMarkup_percent {u : CodeUnit} {t e : Text}
    (h : (ofMarkup u (t ++ 0x25 :: e)).length ≤ t.length + 1) (e' : Text) :
    ofMarkup u (t ++ 0x25 :: e') = ofMarkup u (t ++ 0x25 :: e) := by
  have hplain : CodeUnit.isPlain 0x25 = false := by decide
  have hline : (!CodeUnit.isLineBreak 0x25) = true := by decide
  unfold ofMarkup at h ⊢
  cases hc : Category.ofUnit u with
  | escape => exact ofEscape_percent t e e'
  | mathShift => cases t <;> rfl
  | lineBreak =>
    cases t with
    | nil => exact breakLength_congr u 0x25 e e'
    | cons w t => exact breakLength_congr u w _ _
  | comment =>
    rw [hc] at h
    have hle : ((t ++ 0x25 :: e).takeWhile (!·.isLineBreak)).length ≤ t.length := by
      simp only at h
      omega
    simp only [Text.takeWhile_congr (p := fun v => !v.isLineBreak) hline hle e']
  | other => simp only [Text.takeWhile_append hplain]
  | groupOpen | groupClose | bracketOpen | bracketClose | alignmentTab | tie => rfl

end Lexeme

/-! ## Raw text -/

/-- An end marker found before a percent sign stands before it. -/
theorem endMarkerOffset?_of_append {name : Text} (hname : 0x25 ∉ name) {t e : Text} {n : Nat}
    (h : endMarkerOffset? name (t ++ 0x25 :: e) = some n) (hn : n ≤ t.length) :
    endMarkerOffset? name t = some n := by
  induction t generalizing n with
  | nil =>
    obtain rfl : n = 0 := by simpa using hn
    -- A percent sign is no end marker.
    have hhead := Lexeme.startsWithEndMarker_head (Lexeme.startsWithEndMarker_of_offset h)
    rw [List.drop_zero, List.nil_append, List.head?_cons] at hhead
    exact absurd hhead (by decide)
  | cons u rest ih =>
    have hmarker := startsWithEndMarker_append CodeUnit.stops_percent hname (u :: rest) e
    rw [List.cons_append] at hmarker h
    rw [endMarkerOffset?, hmarker] at h
    rw [endMarkerOffset?]
    split at h
    · next hs => rw [if_pos hs, h]
    · next hs =>
      obtain ⟨m, hm, rfl⟩ := Option.map_eq_some_iff.mp h
      rw [List.length_cons] at hn
      rw [if_neg hs, ih hm (by omega)]
      rfl

namespace Lexeme

theorem ofRawBody_percent {name : Text} (hname : 0x25 ∉ name) {u : CodeUnit} {t e : Text}
    (h : (ofRawBody name u (t ++ 0x25 :: e)).length ≤ t.length + 1) (e' : Text) :
    ofRawBody name u (t ++ 0x25 :: e') = ofRawBody name u (t ++ 0x25 :: e) := by
  simp only [ofRawBody] at h ⊢
  cases hoffset : endMarkerOffset? name (u :: (t ++ 0x25 :: e)) with
  | none =>
    -- Raw text without an end goes to the end of the text.
    rw [hoffset] at h
    have hlong : (t ++ 0x25 :: e).length + 1 ≤ t.length + 1 := h
    rw [List.length_append, List.length_cons] at hlong
    omega
  | some n =>
    rw [hoffset] at h
    have hn : n ≤ (u :: t).length := by
      cases n with
      | zero => exact Nat.zero_le _
      | succ n => simpa using h
    have hfound : endMarkerOffset? name (u :: (t ++ 0x25 :: e')) = some n :=
      endMarkerOffset?_append CodeUnit.stops_percent hname
        (endMarkerOffset?_of_append hname (t := u :: t) hoffset hn) e'
    rw [hfound]
    cases n with
    | zero => exact ofMarkup_percent h e'
    | succ n =>
      simp only [spelled]
      rw [← List.cons_append, ← List.cons_append, List.take_append_of_le_length hn,
        List.take_append_of_le_length hn]

theorem ofVerbatim_percent {d : CodeUnit} {t e : Text}
    (h : (ofVerbatim d (t ++ 0x25 :: e)).length ≤ t.length + 1) (e' : Text) :
    ofVerbatim d (t ++ 0x25 :: e') = ofVerbatim d (t ++ 0x25 :: e) := by
  generalize hp : (fun c : CodeUnit => c != d && !c.isLineBreak) = p
  have hle : ((t ++ 0x25 :: e).takeWhile p).length ≤ t.length := by
    simp only [ofVerbatim, hp] at h
    split at h
    · simp only at h
      omega
    · simp only at h
      omega
  have hbody : (t ++ 0x25 :: e').takeWhile p = (t ++ 0x25 :: e).takeWhile p := by
    -- The percent sign may be the delimiter, which ends the argument, or one of its units.
    cases hd : p 0x25 with
    | true => exact Text.takeWhile_congr hd hle e'
    | false => rw [Text.takeWhile_append hd, Text.takeWhile_append hd]
  simp only [ofVerbatim, hp, hbody, Text.head?_drop_congr hle e e']

/-- The names of raw environments have no percent sign. -/
theorem percent_not_mem_rawEnvironments :
    ∀ name ∈ rawEnvironments, (0x25 : CodeUnit) ∉ name := by decide

/-- A lexeme that ends before a percent sign is the same whatever stands behind the sign. -/
theorem read_percent_congr {mode : Mode} {u : CodeUnit} {t e : Text}
    (hmode : ∀ name, mode = .rawText name → name ∈ rawEnvironments)
    (h : (read mode u (t ++ 0x25 :: e)).length ≤ t.length + 1) (e' : Text) :
    read mode u (t ++ 0x25 :: e') = read mode u (t ++ 0x25 :: e) := by
  cases mode with
  | normal => exact ofMarkup_percent h e'
  | rawText name =>
    exact ofRawBody_percent (percent_not_mem_rawEnvironments name (hmode name rfl)) h e'
  | verbatim d => exact ofVerbatim_percent h e'

end Lexeme

end LatexMarkdown
