import LatexMarkdown.Proofs.Scanning
/-!
  The tokens of a text lie end to end.

  `Tiles gap stop start tokens` says that tokens begin at `start`, follow one another up to gaps, span
  something each, and end with the one end-of-file token at `stop`.  Between the tokens of a text there
  is nothing, or, where comments are dropped, comments with their line breaks (`Text.Gap`).  Main
  statement: `tokens_tile`; it bounds the number of tokens as well.

  A dropped comment is no token, so it is put in front of the gap before the next one
  (`Text.Gap.of_comment`); that is all that the induction over the lexemes needs besides
  `Lexeme.Fits`.
-/
namespace LatexMarkdown

/-! ## Slices -/

namespace Text

theorem slice_append_slice {t : Text} {a b c : Nat} (hab : a ≤ b) (hbc : b ≤ c) :
    t.slice a b ++ t.slice b c = t.slice a c := by
  have hsplit : c - a = (b - a) + (c - b) := by omega
  have hdrop : t.drop b = (t.drop a).drop (b - a) := by
    rw [List.drop_drop]
    congr 1
    omega
  rw [slice, slice, slice, hsplit, List.take_add, hdrop]

/-- The units in front of a place in a text are those of the slice and those behind it. -/
theorem slice_append_drop {t : Text} {a b : Nat} (hab : a ≤ b) :
    t.slice a b ++ t.drop b = t.drop a := by
  have hdrop : t.drop b = (t.drop a).drop (b - a) := by
    rw [List.drop_drop]
    congr 1
    omega
  rw [slice, hdrop, List.take_append_drop]

theorem slice_self (t : Text) (a : Nat) : t.slice a a = [] := by
  rw [slice, Nat.sub_self, List.take_zero]

end Text

/-! ## Gaps -/

/-- The spellings of one line break. -/
def Text.IsLineBreak (t : Text) : Prop := t = [0x0A] ∨ t = [0x0D, 0x0A] ∨ t = [0x0D]

/-- Comments one behind the other, in front of `rest`.  Each is a percent sign, units of one line and
the line break; the break may be missing at the end of the text. -/
inductive Comments : Text → Text → Prop
  | nil (rest : Text) : Comments [] rest
  | cons {body lineBreak gap rest : Text} (hbody : ∀ u ∈ body, CodeUnit.isLineBreak u = false)
      (hbreak : lineBreak.IsLineBreak ∨ lineBreak = [] ∧ gap ++ rest = [])
      (hgap : Comments gap rest) : Comments (0x25 :: (body ++ (lineBreak ++ gap))) rest

/-- What may stand between two tokens: nothing where comments are kept, comments where they are
dropped. -/
structure Text.Gap (source : Text) (keep : Bool) (start stop : Nat) : Prop where
  le : start ≤ stop
  comments : Comments (source.slice start stop) (source.drop stop)
  kept : keep = true → start = stop

/-- Tokens from `start` on that follow one another up to gaps; each spans something, but for the last
one, which ends the text at `stop`. -/
inductive Tiles (gap : Nat → Nat → Prop) (stop : Nat) : Nat → List Token → Prop
  | last {start : Nat} {t : Token} (hgap : gap start t.start) (hk : t.kind = .endOfFile)
      (hstart : t.start = stop) (hstop : t.stop = stop) : Tiles gap stop start [t]
  | cons {start : Nat} {t : Token} {rest : List Token} (hgap : gap start t.start)
      (hk : t.kind ≠ .endOfFile) (hlt : t.start < t.stop) (hrest : Tiles gap stop t.stop rest) :
      Tiles gap stop start (t :: rest)

namespace Tiles

variable {gap : Nat → Nat → Prop} {start start' stop : Nat} {tokens : List Token}

/-- A gap in front of the first token may reach further back. -/
theorem of_gap (h : Tiles gap stop start' tokens)
    (hgap : ∀ next, gap start' next → gap start next) : Tiles gap stop start tokens := by
  cases h with
  | last h hk hstart hstop => exact .last (hgap _ h) hk hstart hstop
  | cons h hk hlt hrest => exact .cons (hgap _ h) hk hlt hrest

/-- Tokens that span something each are no more than there are units. -/
theorem length_le (hgap : ∀ a b, gap a b → a ≤ b) (h : Tiles gap stop start tokens) :
    start + tokens.length ≤ stop + 1 := by
  -- Each token but the last one pays for itself with a unit.
  induction h with
  | last h _ hstart _ =>
    have hle := hgap _ _ h
    rw [List.length_singleton]
    omega
  | cons h _ hlt _ ih =>
    have hle := hgap _ _ h
    rw [List.length_cons]
    omega

/-- The first token ends the text, or spans something and is followed by others. -/
theorem cons_cases {t : Token} (h : Tiles gap stop start (t :: tokens)) :
    gap start t.start ∧
      ((t.kind = .endOfFile ∧ t.start = stop ∧ t.stop = stop) ∨
        (t.kind ≠ .endOfFile ∧ t.start < t.stop ∧ Tiles gap stop t.stop tokens)) := by
  cases h with
  | last hgap hk hstart hstop => exact ⟨hgap, .inl ⟨hk, hstart, hstop⟩⟩
  | cons hgap hk hlt hrest => exact ⟨hgap, .inr ⟨hk, hlt, hrest⟩⟩

theorem le (hgap : ∀ a b, gap a b → a ≤ b) (h : Tiles gap stop start tokens) : start ≤ stop := by
  induction h with
  | last h _ hstart _ => exact hstart ▸ hgap _ _ h
  | cons h _ hlt _ ih => exact Nat.le_trans (hgap _ _ h) (Nat.le_trans (Nat.le_of_lt hlt) ih)

end Tiles

namespace Text

/-- Nothing is a gap. -/
theorem Gap.refl (source : Text) (keep : Bool) (start : Nat) : source.Gap keep start start :=
  ⟨Nat.le_refl _, by rw [slice_self]; exact .nil _, fun _ => rfl⟩

theorem isLineBreak_take_breakLength {u : CodeUnit} (h : u.isLineBreak = true) (rest : Text) :
    IsLineBreak ((u :: rest).take (breakLength (u :: rest))) := by
  unfold breakLength
  split
  · next tail heq =>
    rw [heq]
    exact .inr (.inl rfl)
  · next v tail _ heq =>
    obtain ⟨rfl, rfl⟩ := List.cons.inj heq
    rw [if_pos h]
    simp only [CodeUnit.isLineBreak, Bool.or_eq_true, beq_iff_eq] at h
    rcases h with rfl | rfl
    · exact .inl rfl
    · exact .inr (.inr rfl)
  · next heq => exact absurd heq (by simp)

/-- A dropped comment goes on with the gap behind it. -/
theorem Gap.of_comment {source body lineBreak rest : Text} {start next stop : Nat}
    (hdrop : source.drop start = 0x25 :: (body ++ (lineBreak ++ rest)))
    (hbody : ∀ u ∈ body, CodeUnit.isLineBreak u = false)
    (hbreak : lineBreak.IsLineBreak ∨ lineBreak = [] ∧ rest = [])
    (hstop : stop = start + (1 + body.length + lineBreak.length))
    (h : source.Gap false stop next) : source.Gap false start next := by
  have hle : start ≤ stop := by omega
  -- The comment is what lies up to `stop`, and the gap behind it what lies from there on.
  have hspan : source.slice start stop = 0x25 :: (body ++ lineBreak) := by
    have hlen : stop - start = (0x25 :: (body ++ lineBreak)).length := by
      simp only [List.length_cons, List.length_append]
      omega
    have hshape : (0x25 : CodeUnit) :: (body ++ (lineBreak ++ rest))
        = (0x25 :: (body ++ lineBreak)) ++ rest := by simp
    rw [slice, hdrop, hlen, hshape, List.take_append_length]
  have hrest : source.drop stop = rest := by
    have hsplit := slice_append_drop (t := source) hle
    rw [hdrop, hspan] at hsplit
    simpa using hsplit
  refine ⟨Nat.le_trans hle h.le, ?_, by simp⟩
  rw [← slice_append_slice hle h.le, hspan, List.cons_append, List.append_assoc]
  refine .cons hbody (hbreak.imp_right fun ⟨hnil, hend⟩ => ⟨hnil, ?_⟩) h.comments
  rw [slice_append_drop h.le, hrest, hend]

end Text

/-! ## Comments -/

namespace Lexeme

/-- In every mode only a percent sign begins a comment, and the comment ends with its line. -/
theorem eq_of_kind_read_comment {mode : Mode} {u : CodeUnit} {rest : Text}
    (h : (read mode u rest).kind = .comment) :
    u = 0x25 ∧ (read mode u rest).length = 1 + (rest.takeWhile (!·.isLineBreak)).length := by
  have hkind : (read mode u rest).kind.category? = some .comment := by rw [h]; rfl
  obtain ⟨heq, hcategory⟩ := read_of_category hkind
  refine ⟨?_, by simp only [heq, ofMarkup, hcategory]⟩
  unfold Category.ofUnit at hcategory
  split at hcategory <;> simp_all

end Lexeme

namespace Text

/-- Where a line ends there is its line break, or the end of the text. -/
theorem isLineBreak_or_of_head? {t : Text} (h : ∀ u ∈ t.head?, CodeUnit.isLineBreak u = true) :
    IsLineBreak (t.take (breakLength t)) ∨
      t.take (breakLength t) = [] ∧ t.drop (breakLength t) = [] := by
  cases t with
  | nil => exact .inr ⟨rfl, rfl⟩
  | cons u rest => exact .inl (isLineBreak_take_breakLength (h u rfl) rest)

/-- A comment that is read and dropped goes on with the gap behind it. -/
theorem Gap.of_kind_read {source rest : Text} {mode : Mode} {u : CodeUnit} {offset next : Nat}
    (hdrop : source.drop offset = u :: rest) (hk : (Lexeme.read mode u rest).kind = .comment)
    (h : source.Gap false (offset + ((Lexeme.read mode u rest).length
      + breakLength ((u :: rest).drop (Lexeme.read mode u rest).length))) next) :
    source.Gap false offset next := by
  obtain ⟨rfl, hlen⟩ := Lexeme.eq_of_kind_read_comment hk
  -- Behind the comment stands the line break, which is dropped with it, or nothing.
  have hafter : ((0x25 : CodeUnit) :: rest).drop (Lexeme.read mode 0x25 rest).length
      = rest.dropWhile (!·.isLineBreak) := by
    rw [hlen, Nat.add_comm, List.drop_succ_cons, drop_length_takeWhile]
  rw [hafter] at h
  generalize hb : rest.dropWhile (!·.isLineBreak) = after at h hafter
  have hhead : ∀ v ∈ after.head?, CodeUnit.isLineBreak v = true := by
    intro v hv
    have hstop := List.head?_dropWhile_not (fun u : CodeUnit => !u.isLineBreak) rest
    rw [hb, Option.mem_def.mp hv] at hstop
    simpa using hstop
  have hbody : ∀ v ∈ rest.takeWhile (!·.isLineBreak), CodeUnit.isLineBreak v = false := by
    intro v hv
    simpa using List.mem_takeWhile_imp hv
  refine Gap.of_comment ?_ hbody (isLineBreak_or_of_head? hhead) ?_ h
  · rw [hdrop, List.take_append_drop, ← hb, List.takeWhile_append_dropWhile]
  · rw [List.length_take, Nat.min_eq_left (breakLength_le _), hlen, Nat.add_assoc]

end Text

/-! ## Tokens -/

/-- The tokens of the rest of a text tile it from where it begins. -/
theorem Text.tiles_tokensFrom {source t : Text} {keep : Bool} {mode : Mode} {offset : Nat}
    (hagrees : mode.Agrees t) (hdrop : source.drop offset = t)
    (hlen : offset + t.length = source.length) (m : LineMark) :
    Tiles (source.Gap keep) source.length offset (t.tokensFrom keep mode m offset) := by
  fun_induction Text.tokensFrom keep mode m offset t with
  | case1 mode m offset =>
    have hend : offset = source.length := hlen
    exact .last (.refl source keep offset) rfl hend hend
  | case2 mode m offset u rest x hc n ih =>
    -- The comment is put in front of the gap before the next token.
    obtain ⟨hk, rfl⟩ := hc
    have hle : x.length ≤ (u :: rest).length := (Lexeme.fits_read hagrees).length_le
    have hbreak := breakLength_le ((u :: rest).drop x.length)
    rw [List.length_drop] at hbreak
    have hrest := ih trivial (by rw [← hdrop, List.drop_drop])
      (by rw [List.length_drop]; omega)
    exact hrest.of_gap fun next hgap => .of_kind_read hdrop hk hgap
  | case3 mode m offset u rest x hc ih =>
    have hfits : x.Fits (u :: rest) := Lexeme.fits_read hagrees
    have hle := hfits.length_le
    have hrest := ih hfits.agrees (by rw [← hdrop, List.drop_drop])
      (by rw [List.length_drop]; omega)
    have hpos := Lexeme.length_read_pos mode u rest
    -- Where a token is kept, it begins right here.
    exact .cons (.refl source keep offset) (Lexeme.kind_read_ne_endOfFile mode u rest)
      (Nat.lt_add_of_pos_right hpos) hrest

namespace Text

/-- The tokens of a text tile it. -/
theorem tiles_tokens (source : Text) (keep : Bool) :
    Tiles (source.Gap keep) source.length 0 (source.tokens keep) := by
  have hagrees : Mode.normal.Agrees source := trivial
  rw [tokens_eq_tokensFrom]
  exact tiles_tokensFrom hagrees rfl (Nat.zero_add _) {}

/-- The tokens of a text tile it, whatever the text is, and they are no more than its units and one.
-/
theorem tokens_tile (source : Text) (keep : Bool) :
    Tiles (source.Gap keep) source.length 0 (source.tokens keep) ∧
      (source.tokens keep).length ≤ source.length + 1 := by
  have htiles := tiles_tokens source keep
  have hlen := htiles.length_le fun _ _ hgap => hgap.le
  exact ⟨htiles, by omega⟩

end Text

end LatexMarkdown
