import LatexMarkdown.Proofs.Markers
import LatexMarkdown.Proofs.Spans.Laid
/-!
  What is read ahead lies ahead.

  `Tiled` says of a cursor that the tokens from it on tile the rest of the source.  It gives the
  offsets of what is passed: a cursor ahead has passed the current token (`Tiled.eq_or_le`), so what is
  read from the current token on is laid between where it begins and where the cursor then stands.
  Main statement: `Reads.laid`.
-/
namespace LatexMarkdown.Parse

open Cursor (Reaches)

variable {source : Text} {keep : Bool} {c d : Cursor}

/-! ## Cursors -/

/-- The tokens from the cursor on tile the rest of the source. -/
structure Tiled (source : Text) (keep : Bool) (c : Cursor) : Prop where
  terminated : c.Terminated
  tiles : Tiles (source.Gap keep) source.length c.lastStop c.remaining

theorem lastStop_advance (hk : c.current.kind ≠ .endOfFile) :
    c.advance.lastStop = c.current.stop := by
  simp [Cursor.lastStop, Cursor.advance, hk]

namespace Tiled

theorem initial (settings : Settings) (source : Text) :
    Tiled source settings.keepComments (State.initial settings source).cursor :=
  ⟨State.terminated_initial settings source, by
    rw [State.remaining_initial]
    exact source.tiles_tokens settings.keepComments⟩

/-- The current token ends the source, or spans something. -/
theorem current_cases (h : Tiled source keep c) :
    source.Gap keep c.lastStop c.current.start ∧
      ((c.current.kind = .endOfFile ∧ c.current.start = source.length ∧
          c.current.stop = source.length) ∨
        (c.current.kind ≠ .endOfFile ∧ c.current.start < c.current.stop ∧
          Tiles (source.Gap keep) source.length c.current.stop c.advance.remaining)) := by
  by_cases hk : c.current.kind = .endOfFile
  · obtain ⟨t, rest, hr⟩ := List.exists_cons_of_ne_nil (l := c.remaining)
      (by simp [Cursor.remaining])
    have htiles := h.tiles
    have hcurrent := Cursor.current_of_remaining hr
    rw [hr] at htiles
    rw [hcurrent] at hk ⊢
    obtain ⟨hgap, hcases⟩ := htiles.cons_cases
    exact ⟨hgap, hcases.imp_right fun hne => absurd hk hne.1⟩
  · have htiles := h.tiles
    rw [Cursor.remaining_eq_cons h.terminated hk] at htiles
    exact htiles.cons_cases

/-- The gap before the current token. -/
theorem gap (h : Tiled source keep c) : source.Gap keep c.lastStop c.current.start :=
  h.current_cases.1

theorem lastStop_le (h : Tiled source keep c) : c.lastStop ≤ c.current.start := h.gap.le

/-- Only the last token spans nothing. -/
theorem start_lt_stop (h : Tiled source keep c) (hk : c.current.kind ≠ .endOfFile) :
    c.current.start < c.current.stop :=
  (h.current_cases.2.resolve_left fun hend => hk hend.1).2.1

/-- The current token stands in the source. -/
theorem start_le_stop (h : Tiled source keep c) : c.current.start ≤ c.current.stop := by
  obtain ⟨-, ⟨-, hstart, hstop⟩ | ⟨-, hlt, -⟩⟩ := h.current_cases <;> omega

theorem stop_le (h : Tiled source keep c) : c.current.stop ≤ source.length := by
  obtain ⟨-, ⟨-, -, hstop⟩ | ⟨-, -, hrest⟩⟩ := h.current_cases
  · exact Nat.le_of_eq hstop
  · exact hrest.le fun _ _ hgap => hgap.le

theorem lastStop_le_length (h : Tiled source keep c) : c.lastStop ≤ source.length :=
  Nat.le_trans h.lastStop_le (Nat.le_trans h.start_le_stop h.stop_le)

theorem advance (h : Tiled source keep c) : Tiled source keep c.advance := by
  by_cases hk : c.current.kind = .endOfFile
  · rwa [Cursor.advance, if_pos hk]
  · obtain ⟨-, -, hrest⟩ := h.current_cases.2.resolve_left fun hend => hk hend.1
    exact ⟨h.terminated.advance, lastStop_advance hk ▸ hrest⟩

theorem reaches (h : Tiled source keep c) (hd : c.Reaches d) : Tiled source keep d := by
  obtain ⟨n, rfl⟩ := hd
  induction n generalizing c with
  | zero => exact h
  | succ n ih => exact ih h.advance

theorem lastStop_le_lastStop (h : Tiled source keep c) (hd : c.Reaches d) :
    c.lastStop ≤ d.lastStop := by
  obtain ⟨n, rfl⟩ := hd
  induction n generalizing c with
  | zero => exact Nat.le_refl _
  | succ n ih =>
    refine Nat.le_trans ?_ (ih h.advance)
    by_cases hk : c.current.kind = .endOfFile
    · rw [Cursor.advance, if_pos hk]
    · rw [lastStop_advance hk]
      exact Nat.le_trans h.lastStop_le h.start_le_stop

/-- Past the current token. -/
theorem stop_le_lastStop (h : Tiled source keep c) (hk : c.current.kind ≠ .endOfFile)
    (hd : c.advance.Reaches d) : c.current.stop ≤ d.lastStop :=
  lastStop_advance hk ▸ h.advance.lastStop_le_lastStop hd

/-- What begins with the current token ends behind it. -/
theorem start_le_lastStop (h : Tiled source keep c) (hk : c.current.kind ≠ .endOfFile)
    (hd : c.advance.Reaches d) : c.current.start ≤ d.lastStop :=
  Nat.le_trans h.start_le_stop (h.stop_le_lastStop hk hd)

/-- A cursor ahead is the same, or has passed the current token. -/
theorem eq_or_le (h : Tiled source keep c) (hd : c.Reaches d) :
    d = c ∨ c.current.stop ≤ d.lastStop := by
  by_cases hk : c.current.kind = .endOfFile
  · -- The last token is never passed.
    left
    obtain ⟨n, rfl⟩ := hd
    induction n with
    | zero => rfl
    | succ n ih => rw [Cursor.advanceBy_succ, Cursor.advance, if_pos hk, ih]
  · obtain ⟨n, rfl⟩ := hd
    cases n with
    | zero => exact .inl rfl
    | succ n => exact .inr (h.stop_le_lastStop hk (.advanceBy _ n))

theorem start_le_start (h : Tiled source keep c) (hd : c.Reaches d) :
    c.current.start ≤ d.current.start := by
  rcases h.eq_or_le hd with rfl | hpast
  · exact Nat.le_refl _
  · exact Nat.le_trans h.start_le_stop (Nat.le_trans hpast (h.reaches hd).lastStop_le)

end Tiled

/-! ## Mathematics -/

variable {start stop : Nat}

theorem laid_mathSpan (hle : start ≤ stop) (hstop : stop ≤ source.length) (body : Text) :
    Laid source keep start stop ((mathSpan start stop body).map .inline) := by
  simp only [mathSpan]
  split
  · exact .nil
  · exact .singleton rfl rfl hle hstop .nil

/-- Mathematics after a dollar begins at the dollar, or with the second half of a double dollar. -/
theorem laid_readDollars {spelled : Source} {opener : Marker} {index n : Nat} {pieces : List Text}
    {spans : List Inline} (h : Tiled source keep c) (hopener : opener.token.start ≤ c.lastStop)
    (hread : readDollars spelled opener index pieces c.ahead = .ok (spans, n)) :
    Laid source keep opener.token.start (c.advanceBy n).lastStop (spans.map .inline) := by
  induction hl : c.ahead generalizing c opener index pieces spans n with
  | nil => rw [hl] at hread; cases hread
  | cons t rest ih =>
    rw [hl, readDollars] at hread
    split at hread
    · cases hread
    next hk =>
    have hcurrent := Cursor.current_of_ahead hl
    have hahead : c.advance.ahead = rest := Cursor.ahead_advance hl hk
    rw [← hcurrent] at hk hread
    have hlast := lastStop_advance hk
    have hlt := h.start_lt_stop hk
    have hbefore := h.lastStop_le
    -- The current token closes, or closes and opens the next, or belongs to the body.
    split at hread
    · cases Except.ok.inj hread
      show Laid source keep _ c.advance.lastStop _
      rw [hlast]
      exact laid_mathSpan (by omega) h.stop_le _
    split at hread
    · obtain ⟨⟨behind, n⟩, hrest, hread⟩ := exists_of_bind_ok hread
      cases Except.ok.inj hread
      rw [← hahead] at hrest
      have hbehind := ih h.advance (by simp only; omega) hrest hahead
      have hstop := h.advance.lastStop_le_lastStop (.advanceBy _ n)
      rw [List.map_append, Cursor.advanceBy_succ]
      refine .append (laid_mathSpan (by omega) ?_ _) hbehind (by omega) (by omega)
      exact Nat.le_trans hlt h.stop_le
    · obtain ⟨⟨spans, n⟩, hrest, hread⟩ := exists_of_bind_ok hread
      cases Except.ok.inj hread
      rw [← hahead] at hrest
      rw [Cursor.advanceBy_succ]
      exact ih h.advance (by omega) hrest hahead

theorem laid_readInlineMath {spelled : Source} {spans : List Inline} (h : Tiled source keep c)
    (hk : c.current.kind ≠ .endOfFile) (hread : readInlineMath spelled c = .ok (spans, d)) :
    Laid source keep c.current.start d.lastStop (spans.map .inline) := by
  have hreaches := reaches_of_readInlineMath hread
  have hstop := h.stop_le_lastStop hk hreaches
  have hlt := h.start_lt_stop hk
  simp only [readInlineMath] at hread
  split at hread
  · obtain ⟨⟨spans, n⟩, hdollars, hread⟩ := exists_of_bind_ok hread
    cases Except.ok.inj hread
    have hahead : c.advance.ahead = c.ahead.tail := by simp [Cursor.advance, hk]
    rw [← hahead] at hdollars
    refine laid_readDollars h.advance ?_ hdollars
    rw [lastStop_advance hk]
    exact Nat.le_of_lt hlt
  · obtain ⟨⟨text, after⟩, -, hread⟩ := exists_of_bind_ok hread
    cases Except.ok.inj hread
    have hend := (h.advance.reaches hreaches).lastStop_le_length
    exact laid_mathSpan (Nat.le_trans (Nat.le_of_lt hlt) hstop) hend _

/-! ## Content -/

theorem Reads.stop_le_lastStop {ctx : Context} {ns : List Inline} (h : Reads ctx c d ns)
    (hc : Tiled source keep c) (hk : c.current.kind ≠ .endOfFile) :
    c.current.stop ≤ d.lastStop := hc.stop_le_lastStop hk h.reaches_advance

/-- What is read from the current token on is laid between where the token begins and where the
cursor then stands. -/
theorem Reads.laid {ctx : Context} {ns : List Inline} (h : Reads ctx c d ns)
    (hc : Tiled source keep c) (hk : c.current.kind ≠ .endOfFile) :
    Laid source keep c.current.start d.lastStop (ns.map .inline) := by
  have hle := h.stop_le_lastStop hc hk
  have hend := (hc.reaches ((Reaches.advance c).trans h.reaches_advance)).lastStop_le_length
  have hlt := hc.start_lt_stop hk
  -- A node without children that spans part of what is read.
  have hleaf : ∀ {n : Inline}, n.children = [] → n.info.start ≤ n.info.stop →
      n.info.stop ≤ d.lastStop → (Node.inline n).Orderly source keep := fun hn hupright hstop =>
    .of_children_nil hupright (Nat.le_trans hstop hend) (by simp [Node.children, hn])
  cases h with
  | dropped => exact .nil
  | text t | hardBreak _ =>
    exact Laid.cons_iff.mpr ⟨hleaf rfl (Nat.le_of_lt hlt) hle, Nat.le_refl _, hle, .nil⟩
  | comment t hk' =>
    -- The line break is the token behind the comment.
    have hne : c.advance.current.kind ≠ .endOfFile := by simp [hk']
    have hlast := lastStop_advance hne
    have hgap := lastStop_advance hk ▸ hc.advance.lastStop_le
    have hbreak := hc.advance.start_lt_stop hne
    refine Laid.cons_iff.mpr ⟨hleaf rfl (Nat.le_of_lt hlt) hle, Nat.le_refl _, hle, ?_⟩
    exact Laid.cons_iff.mpr ⟨hleaf rfl (Nat.le_of_lt hbreak) (Nat.le_of_eq hlast.symm), hgap,
      Nat.le_of_eq hlast.symm, .nil⟩
  | url _ _ =>
    have hspan := Nat.le_trans (Nat.le_of_lt hlt) hle
    exact .singleton rfl rfl hspan hend (.singleton rfl rfl hspan hend .nil)
  | verbatim _ hk' =>
    have hne : c.advance.current.kind ≠ .endOfFile := by simp [hk']
    have hlast := lastStop_advance hne
    have hspan : c.current.start ≤ c.advance.current.stop := by omega
    exact Laid.cons_iff.mpr ⟨hleaf rfl hspan (Nat.le_of_eq hlast.symm), Nat.le_refl _,
      Nat.le_of_eq hlast.symm, .nil⟩
  | math h => exact laid_readInlineMath hc hk h

end LatexMarkdown.Parse
