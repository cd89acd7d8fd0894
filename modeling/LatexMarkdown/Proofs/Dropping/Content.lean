import LatexMarkdown.Proofs.Concatenation
import LatexMarkdown.Proofs.Dropping.Lexing
/-!
  What stands in a dropped comment.

  Main statement: `convert_comment_congr`.  Two sources that differ in a dropped comment alone, and
  not in its length, are converted alike: same output and diagnostics, or the same error in the same
  place.

  No lexeme before the comment sees into it (`Lexeme.read_percent_congr`), so the token lists are the
  same (`Text.tokens_around_comment`).  No token lies in the comment, so each of them is spelled the
  same in both sources, and lines begin at the same offsets.  A run goes by nothing else.
-/
namespace LatexMarkdown

namespace Text

/-! ## Tokens around a comment -/

/-- No comment is found before where it is looked for from. -/
theorem le_of_mem_commentsFrom {mode : Mode} {offset n : Nat} {t : Text}
    (h : n ∈ t.commentsFrom mode offset) : offset ≤ n := by
  fun_induction commentsFrom mode offset t with
  | case1 => exact absurd h (by simp)
  | case2 mode offset u rest x hc k ih =>
    rcases List.mem_cons.mp h with rfl | h
    · exact Nat.le_refl _
    · exact Nat.le_trans (Nat.le_add_right _ _) (ih h)
  | case3 mode offset u rest x hc ih => exact Nat.le_trans (Nat.le_add_right _ _) (ih h)

/-- A line break behind a text does not reach over a percent sign. -/
theorem breakLength_percent (t e e' : Text) :
    breakLength (t ++ 0x25 :: e') = breakLength (t ++ 0x25 :: e) := by
  match t with
  | [] => rfl
  | [u] =>
    rw [List.singleton_append, List.singleton_append, breakLength_cons_cons, breakLength_cons_cons]
  | u :: v :: t =>
    rw [List.cons_append, List.cons_append, List.cons_append, List.cons_append,
      breakLength_cons_cons, breakLength_cons_cons]

/-- The tokens before a dropped comment do not go by what stands behind its percent sign, nor does
the state in which the comment is read. -/
theorem exists_tokensFrom_percent {mode : Mode} {offset : Nat} {t e : Text}
    (hmode : ∀ name, mode = .rawText name → name ∈ rawEnvironments) (m : LineMark)
    (h : offset + t.length ∈ commentsFrom mode offset (t ++ 0x25 :: e)) :
    ∃ own m', (∀ tok ∈ own, tok.stop ≤ offset + t.length) ∧
      ∀ e', tokensFrom false mode m offset (t ++ 0x25 :: e')
        = own ++ tokensFrom false .normal m' (offset + t.length) (0x25 :: e') := by
  induction hn : t.length using Nat.strong_induction_on generalizing mode offset t m with
  | _ n ih =>
    subst hn
    cases t with
    | nil =>
      rw [List.nil_append, commentsFrom] at h
      simp only [List.length_nil, Nat.add_zero] at h
      split at h
      · next hc =>
        obtain ⟨rfl, -⟩ := Lexeme.eq_normal_of_kind_comment hc
        exact ⟨[], m, by simp, fun e' => rfl⟩
      · have hle := le_of_mem_commentsFrom h
        have hpos := Lexeme.length_read_pos mode 0x25 e
        omega
    | cons u t =>
      generalize hx : Lexeme.read mode u (t ++ 0x25 :: e) = x
      have hpos : 0 < x.length := hx ▸ Lexeme.length_read_pos mode u _
      rw [List.cons_append, commentsFrom] at h
      simp only [hx] at h
      -- The lexeme at the front ends before the percent sign, and so it is always read.
      have hread : x.length ≤ (u :: t).length →
          ∀ e', Lexeme.read mode u (t ++ 0x25 :: e') = x := fun hle e' => by
        rw [← hx]
        exact Lexeme.read_percent_congr hmode (by rwa [hx]) e'
      have hdrop : ∀ n ≤ (u :: t).length, ∀ e' : Text,
          (u :: (t ++ 0x25 :: e')).drop n = (u :: t).drop n ++ 0x25 :: e' :=
        fun n hle e' => by
          rw [← List.cons_append]
          exact List.drop_append_of_le_length hle
      -- What is left behind some units is a shorter text in front of the same percent sign.
      have hbehind : ∀ (n : Nat) (mode' : Mode) (m' : LineMark), 0 < n → n ≤ (u :: t).length →
          (∀ name, mode' = .rawText name → name ∈ rawEnvironments) →
          offset + (u :: t).length
            ∈ commentsFrom mode' (offset + n) ((u :: (t ++ 0x25 :: e)).drop n) →
          ∃ own m'', (∀ tok ∈ own, tok.stop ≤ offset + (u :: t).length) ∧
            ∀ e', tokensFrom false mode' m' (offset + n) ((u :: (t ++ 0x25 :: e')).drop n)
              = own ++ tokensFrom false .normal m'' (offset + (u :: t).length) (0x25 :: e') := by
        intro n mode' m' hn hle hmode' hmem
        have hsub : offset + n + ((u :: t).drop n).length = offset + (u :: t).length := by
          rw [List.length_drop]
          omega
        rw [hdrop n hle, ← hsub] at hmem
        obtain ⟨own, m'', hown, htokens⟩ :=
          ih _ (by rw [List.length_drop]; omega) hmode' m' hmem rfl
        rw [hsub] at hown htokens
        exact ⟨own, m'', hown, fun e' => by rw [hdrop n hle, htokens e']⟩
      split at h
      · next hc =>
        -- A comment that is dropped takes its line break with it.
        generalize hb : breakLength ((u :: (t ++ 0x25 :: e)).drop x.length) = b at h
        have hmem := (List.mem_cons.mp h).resolve_left (by rw [List.length_cons]; omega)
        have hle : x.length + b ≤ (u :: t).length := by
          have hle := le_of_mem_commentsFrom hmem
          omega
        have hlen : x.length ≤ (u :: t).length := by omega
        have hbreak : ∀ e', breakLength ((u :: (t ++ 0x25 :: e')).drop x.length) = b := fun e' => by
          rw [← hb, hdrop _ hlen, hdrop _ hlen]
          exact breakLength_percent _ e e'
        obtain ⟨own, m', hown, htokens⟩ :=
          hbehind (x.length + b) .normal (m.afterComment b) (by omega) hle (by simp) hmem
        refine ⟨own, m', hown, fun e' => ?_⟩
        rw [List.cons_append, tokensFrom]
        simp only [hread hlen e', hc, true_and, if_true, hbreak e', htokens e']
      · next hc =>
        have hlen : x.length ≤ (u :: t).length := by
          have hle := le_of_mem_commentsFrom h
          omega
        obtain ⟨own, m', hown, htokens⟩ := hbehind x.length x.mode (m.after x) hpos hlen
          (fun name hname => (Lexeme.begins_of_mode (hx ▸ hname)).2.2) h
        refine ⟨x.toToken m offset :: own, m', ?_, fun e' => ?_⟩
        · intro tok htok
          rcases List.mem_cons.mp htok with rfl | htok
          · exact Nat.add_le_add_left hlen offset
          · exact hown tok htok
        · rw [List.cons_append, tokensFrom]
          simp only [hread hlen e', hc, false_and, if_false, htokens e']
          rfl

/-- A dropped comment takes its line break with it. -/
theorem tokensFrom_false_comment {c q : Text} (hc : ∀ u ∈ c, CodeUnit.isLineBreak u = false)
    (hq : ∀ u ∈ q.head?, CodeUnit.isLineBreak u = true) (m : LineMark) (offset : Nat) :
    tokensFrom false .normal m offset (0x25 :: (c ++ q))
      = tokensFrom false .normal (m.afterComment (breakLength q))
          (offset + (1 + c.length + breakLength q)) (q.drop (breakLength q)) := by
  have hc' : ∀ u ∈ c, (!CodeUnit.isLineBreak u) = true := fun u hu => by simp [hc u hu]
  have hbody : (c ++ q).takeWhile (!·.isLineBreak) = c := by
    rw [List.takeWhile_append_of_pos hc']
    cases q with
    | nil => simp
    | cons u q => simp [hq u rfl]
  have hafter : ((0x25 : CodeUnit) :: (c ++ q)).drop (1 + c.length) = q := by
    rw [Nat.add_comm, List.drop_succ_cons, List.drop_left]
  have hlen : (Lexeme.ofComment (c ++ q)).length = 1 + c.length := by
    rw [Lexeme.ofComment, hbody]
  have hkind : (Lexeme.ofComment (c ++ q)).kind = .comment := rfl
  rw [tokensFrom]
  simp only [Lexeme.read_percent, hkind, and_self, if_true, hlen, hafter]
  rw [← List.drop_drop, hafter]

/-- Two texts with a dropped comment of the same length in the same place have the same tokens.  Each
token stops before the comment or starts behind it. -/
theorem tokens_around_comment {p c q : Text} (hc : ∀ u ∈ c, CodeUnit.isLineBreak u = false)
    (hq : ∀ u ∈ q.head?, CodeUnit.isLineBreak u = true)
    (h : p.length ∈ (Scanner.ofText (p ++ 0x25 :: (c ++ q))).droppedComments) {c' : Text}
    (hc' : ∀ u ∈ c', CodeUnit.isLineBreak u = false) (hlen : c'.length = c.length) :
    Text.tokens (p ++ 0x25 :: (c' ++ q)) = Text.tokens (p ++ 0x25 :: (c ++ q)) ∧
      ∀ tok ∈ Text.tokens (p ++ 0x25 :: (c ++ q)),
        tok.stop ≤ p.length ∨ p.length + (1 + c.length) ≤ tok.start := by
  rw [Scanner.droppedComments_eq_commentsFrom (.ofText _) trivial rfl] at h
  have hbegun : 0 + p.length ∈ commentsFrom .normal 0 (p ++ 0x25 :: (c ++ q)) := by
    rwa [Nat.zero_add]
  obtain ⟨own, m, hown, htokens⟩ := exists_tokensFrom_percent (by simp) {} hbegun
  rw [Nat.zero_add] at hown htokens
  rw [tokens_eq_tokensFrom, tokens_eq_tokensFrom, htokens, htokens, tokensFrom_false_comment hc hq,
    tokensFrom_false_comment hc' hq, hlen]
  refine ⟨rfl, fun tok htok => ?_⟩
  rcases List.mem_append.mp htok with htok | htok
  · exact .inl (hown tok htok)
  · have hle := le_start_tokensFrom tok htok
    exact .inr (by omega)

/-! ## Lines around a comment -/

theorem lineStartsFrom_append {c : Text} (hc : ∀ u ∈ c, CodeUnit.isLineBreak u = false)
    (start : Nat) (q : Text) :
    lineStartsFrom start (c ++ q) = lineStartsFrom (start + c.length) q := by
  induction c generalizing start with
  | nil => rfl
  | cons u c ih =>
    have hu := hc u List.mem_cons_self
    simp only [CodeUnit.isLineBreak, Bool.or_eq_false_iff, beq_eq_false_iff_ne] at hu
    rw [List.cons_append, lineStartsFrom, if_neg (by simp [hu.1, hu.2]),
      ih fun v hv => hc v (List.mem_cons_of_mem u hv), List.length_cons, Nat.add_right_comm,
      Nat.add_assoc]

theorem lineStartsFrom_congr {e e' : Text}
    (h : ∀ start, lineStartsFrom start e' = lineStartsFrom start e) (p : Text) (start : Nat) :
    lineStartsFrom start (p ++ 0x25 :: e') = lineStartsFrom start (p ++ 0x25 :: e) := by
  induction p generalizing start with
  | nil =>
    rw [List.nil_append, List.nil_append, lineStartsFrom, lineStartsFrom, if_neg (by simp),
      if_neg (by simp), h]
  | cons u p ih =>
    -- A carriage return looks at the unit behind it, which is the same.
    have hhead : (p ++ 0x25 :: e').head? = (p ++ 0x25 :: e).head? := by cases p <;> rfl
    rw [List.cons_append, List.cons_append, lineStartsFrom, lineStartsFrom, hhead, ih]

/-- Lines begin at the same offsets. -/
theorem lineTable_around_comment {p c c' q : Text}
    (hc : ∀ u ∈ c, CodeUnit.isLineBreak u = false) (hc' : ∀ u ∈ c', CodeUnit.isLineBreak u = false)
    (hlen : c'.length = c.length) :
    LineTable.ofText (p ++ 0x25 :: (c' ++ q)) = LineTable.ofText (p ++ 0x25 :: (c ++ q)) := by
  unfold LineTable.ofText lineStarts
  rw [lineStartsFrom_congr (e := c ++ q) fun start => by
    rw [lineStartsFrom_append hc, lineStartsFrom_append hc', hlen]]

end Text

namespace Parse

/-! ## Runs over the two sources -/

/-- A token behind a part of the source is spelled by what stands behind it. -/
theorem spelling_congr_right {t : Token} {s s' : Text} (hlen : s'.length = s.length)
    (h : s.length ≤ t.start) (q : Text) :
    Source.spelling (s' ++ q).toArray t = Source.spelling (s ++ q).toArray t := by
  simp only [Source.spelling, Array.toList_extract, List.extract_eq_take_drop]
  rw [List.drop_append, List.drop_append, List.drop_eq_nil_of_le h,
    List.drop_eq_nil_of_le (hlen ▸ h), hlen]

/-- Where two sources have the same tokens, spelled alike, reading them comes to the same. -/
theorem outcome_plain_congr {settings : Settings} {source source' : Text}
    (htokens : source'.tokens settings.keepComments = source.tokens settings.keepComments)
    (hspelling : ∀ t ∈ source.tokens settings.keepComments,
      Source.spelling source'.toArray t = Source.spelling source.toArray t) :
    Frame.plain.outcome (outcomeOf settings source') = Frame.plain.outcome (outcomeOf settings source)
    := by
  have hcursor : source'.cursor settings.keepComments = source.cursor settings.keepComments := by
    rw [Text.cursor, Text.cursor, htokens]
  have hinitial : State.initial settings source' = State.initial settings source := by
    rw [State.initial, State.initial, hcursor]
  have hterminated : (Frame.plain.state (State.initial settings source)).cursor.Terminated :=
    Frame.lawful_plain.terminated (source.terminated_cursor _)
  have hcarries : Frame.plain.Carries (.of settings source) (.of settings source')
      (State.initial settings source).cursor := by
    refine ⟨source.terminated_cursor _, Text.kind_ahead_cursor _ _, fun t ht => ?_, rfl⟩
    exact hspelling t (List.dropLast_sublist _ |>.subset ht)
  -- One run over the tokens, with either source to spell them from.
  rw [← Frame.outcome_plain rfl (hinitial ▸ hterminated)]
  simp only [hinitial]
  exact Frame.outcome_state Frame.lawful_plain rfl hcarries _ hterminated

end Parse

/-! ## Conversions -/

namespace Dropping

open Parse

/-- A conversion goes by the marks that reading goes by. -/
theorem convertUnder_eq_plain (settings : Settings) (source : Text) :
    convertUnder settings source =
      match Frame.plain.outcome (outcomeOf settings source) with
      | .error f => .error (.structural (f.located (LineTable.ofText source)))
      | .ok (blocks, diagnostics) => Concatenation.written settings blocks diagnostics := by
  rw [Concatenation.convertUnder_eq]
  cases outcomeOf settings source with
  | error f => rfl
  | ok r =>
    obtain ⟨blocks, diagnostics⟩ := r
    simp only [Frame.outcome]
    rw [Frame.map_diagnostic rfl]
    simp only [Frame.plain, List.append_nil, Concatenation.written_map]

/-- Under the same options, and where those drop comments, two sources that differ in nothing but the
content of a dropped comment, which is as long in one as in the other, are converted to the same
output with the same diagnostics, or fail with the same error at the same place. -/
theorem convert_comment_congr {p c c' q : Text} {options : Options}
    (hdropped : p.length ∈ (Scanner.ofText (p ++ 0x25 :: (c ++ q))).droppedComments)
    (hkeep : ∀ settings, options.resolve = .ok settings → settings.keepComments = false)
    (hlen : c'.length = c.length) (hc : ∀ u ∈ c, CodeUnit.isLineBreak u = false)
    (hc' : ∀ u ∈ c', CodeUnit.isLineBreak u = false)
    (hq : ∀ u ∈ q.head?, CodeUnit.isLineBreak u = true) :
    convertWithDiagnostics (p ++ 0x25 :: (c' ++ q)) options
      = convertWithDiagnostics (p ++ 0x25 :: (c ++ q)) options := by
  obtain ⟨htokens, houtside⟩ := Text.tokens_around_comment hc hq hdropped hc' hlen
  have hspelling : ∀ t ∈ Text.tokens (p ++ 0x25 :: (c ++ q)),
      Source.spelling (p ++ 0x25 :: (c' ++ q)).toArray t
        = Source.spelling (p ++ 0x25 :: (c ++ q)).toArray t := by
    intro t ht
    rcases houtside t ht with hstop | hstart
    · rw [spelling_append_left hstop, spelling_append_left hstop]
    · have hsame : (p ++ 0x25 :: c').length = (p ++ 0x25 :: c).length := by simp [hlen]
      have hbehind : (p ++ 0x25 :: c).length ≤ t.start := by
        simp only [List.length_append, List.length_cons]
        omega
      have hright := spelling_congr_right hsame hbehind q
      simpa using hright
  unfold convertWithDiagnostics withSettings
  cases hresolve : options.resolve with
  | error e => rfl
  | ok settings =>
    have hk : settings.keepComments = false := hkeep settings hresolve
    have hrun : Frame.plain.outcome (outcomeOf settings (p ++ 0x25 :: (c' ++ q)))
        = Frame.plain.outcome (outcomeOf settings (p ++ 0x25 :: (c ++ q))) := by
      apply outcome_plain_congr
      · rw [hk]
        exact htokens
      · rw [hk]
        exact hspelling
    simp only [convertUnder_eq_plain, hrun, Text.lineTable_around_comment hc hc' hlen]

/-- A link whose destination goes on behind a comment; with a brace in the comment, and without. -/
theorem convert_comment_congr_sample :
    let p : Text := "\\url\x7bx"
    let c : Text := "c\x7d"
    let c' : Text := "\\q"
    let q : Text := "\ny\x7d"
    p.length ∈ (Scanner.ofText (p ++ 0x25 :: (c ++ q))).droppedComments ∧
      convertWithDiagnostics (p ++ 0x25 :: (c' ++ q)) = convertWithDiagnostics (p ++ 0x25 :: (c ++ q))
    := by
  intro p c c' q
  have hdropped : p.length ∈ (Scanner.ofText (p ++ 0x25 :: (c ++ q))).droppedComments := by
    decide +kernel
  have hbreak : ∀ u ∈ q.head?, CodeUnit.isLineBreak u = true := by
    intro u hu
    rw [← Option.some.inj (show some 0x0A = some u from hu)]
    rfl
  refine ⟨hdropped, convert_comment_congr hdropped ?_ rfl (by decide) (by decide) hbreak⟩
  intro settings h
  cases h
  rfl

end Dropping

end LatexMarkdown
