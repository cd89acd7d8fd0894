import LatexMarkdown.Proofs.Comments
import LatexMarkdown.Proofs.LineEndings
import LatexMarkdown.Proofs.Restarting
import LatexMarkdown.Proofs.TableComments.Gaps
import LatexMarkdown.Proofs.Termination
/-!
  Comments in tables, kept and dropped.

  Main statement: `parseDocument_tableComments`.  Where reading comes to comments in tables alone, a
  source is read with its comments kept if and only if it is read with them dropped, and the two trees
  are the same, but for their places and for spaces and line breaks that the first one has more.  These
  come from the line breaks behind the comments, which stay where the comments are passed: so the trees
  do differ (`not_forall_eq_tableComments`).  Two more things have to be asked of the comments, that
  none keeps an argument from what takes it (`Parse.Apart`), and that none stands in the count of columns
  of a spanning cell (`Parse.CountsWhole`).

  The run that keeps comments is followed step by step; the other one waits while a comment and its line
  break are passed (`Parse.Likeness.Stands.follows_spaces`).
-/
namespace LatexMarkdown

/-- A line break in a source is spelled by units of line breaks. -/
theorem Text.looser_newLine (source : Text) (keep : Bool) :
    ∀ t ∈ source.tokens keep, t.kind = .newLine →
      Text.Looser (Parse.Source.spelling source.toArray t) [] := by
  have hslices : ∀ {mode : Mode} {m : LineMark} {offset : Nat} {t : Text}, source.drop offset = t →
      ∀ token ∈ t.tokensFrom keep mode m offset, token.kind = .newLine →
        (source.slice token.start token.stop).Looser [] := by
    intro mode m offset t hdrop
    -- Along the lexing: what is left is what stands at the offset in the source.
    fun_induction tokensFrom keep mode m offset t with
    | case1 mode m offset =>
      intro token htoken hk
      rw [List.mem_singleton.mp htoken] at hk
      cases hk
    | case2 mode m offset u rest x hc n ih => exact ih (by rw [← hdrop, List.drop_drop])
    | case3 mode m offset u rest x hc ih =>
      intro token htoken hk
      rcases List.mem_cons.mp htoken with rfl | htoken
      · obtain ⟨hbreak, hlength, -⟩ := Lexeme.of_kind_newLine hk
        have hspan : source.slice offset (offset + x.length) = (u :: rest).take x.length := by
          rw [slice, hdrop, Nat.add_sub_cancel_left]
        show (source.slice offset (offset + x.length)).Looser []
        rw [hspan, show x.length = breakLength (u :: rest) from hlength, Looser.nil_iff]
        rcases isLineBreak_take_breakLength hbreak rest with h | h | h <;> rw [h] <;> decide
      · exact ih (by rw [← hdrop, List.drop_drop]) token htoken hk
  intro t ht hk
  rw [tokens_eq_tokensFrom] at ht
  rw [Parse.spelling_eq_slice]
  exact hslices rfl t ht hk

namespace Parse

/-! ## Reading in tables -/

namespace State

/-- A comment comes next that does not stand in a table. -/
def AtStrayComment (s : State) : Prop :=
  match s.inline? with
  | none => s.cursor.skipSpacing.current.kind = .comment
  | some i => s.cursor.current.kind = .comment ∧ i.inTable = false

instance (s : State) : Decidable s.AtStrayComment := by
  unfold AtStrayComment
  cases s.inline? <;> infer_instance

/-- Does reading come to its end in so many steps, and to no comment out of a table? -/
def staysInTables (ctx : Context) (s : State) : Nat → Bool
  | 0 => false
  | n + 1 =>
    !decide s.AtStrayComment &&
      match s.step ctx with
      | .ok (some t) => staysInTables ctx t n
      | _ => true

variable {ctx : Context} {s t : State}

/-- What is found by reading is so of every state that reading comes to. -/
theorem not_atStrayComment {n k : Nat} (hstays : staysInTables ctx s n = true)
    (h : Runs ctx k s t) : ¬ t.AtStrayComment := by
  induction h generalizing n with
  | refl s =>
    cases n with
    | zero => cases hstays
    | succ n =>
      simp only [staysInTables, Bool.and_eq_true, Bool.not_eq_true', decide_eq_false_iff_not] at hstays
      exact hstays.1
  | step hs _ ih =>
    cases n with
    | zero => cases hstays
    | succ n =>
      simp only [staysInTables, hs, Bool.and_eq_true] at hstays
      exact ih hstays.2

end State

namespace Likeness

variable {settings : Settings} {source : Text} {s s' : State}

/-- A step is followed by one step of the other reading or by none. -/
theorem Stands.follows_spaces (h : (spaces settings source).Stands s s') (hs : ¬ s.AtStrayComment) :
    (∃ t, s.step (spaces settings source).ctx = .ok (some t) ∧
        (spaces settings source).Stands t s') ∨
      Agree (Option.Rel (spaces settings source).Stands) (s.step (spaces settings source).ctx)
        (s'.step (spaces settings source).ctx') := by
  cases hi : s.inline? with
  | none =>
    simp only [State.AtStrayComment, hi] at hs
    rw [step_between hi, step_between (h.alike.inline?_eq_none hi)]
    exact .inr (agree_takeBlock h.alike hi (h.near.at_skipSpacing fun _ => hs))
  | some i =>
    simp only [State.AtStrayComment, hi, not_and, Bool.not_eq_false] at hs
    obtain ⟨b, hc⟩ := h.along (by rw [hi]; rfl)
    obtain ⟨hk, hbehind⟩ | ⟨hk, hblank, hrest⟩ | hat := hc.passes
    · refine .inl ⟨_, State.step_comment hi hk, ?_⟩
      simp only [State.takeComment, hs hk, if_true]
      exact h.pass hi hbehind fun _ hf => hf
    · refine .inl ⟨_, State.step_lineBreak hi hk hblank, h.pass hi hrest fun _ hf => ?_⟩
      -- The line break that the other reading lacks is read as a space.
      exact Fragments.Looser.pushGap hf (by simp) (.gap (by decide) .nil) _ _
    · obtain ⟨i', hi', hii⟩ := h.alike.exists_content hi
      exact .inr (agree_step_inside h.alike hi hi' hii hat)

/-- A run that keeps comments in tables and the run that drops them come to blocks that are the same
but for spaces, or both fail. -/
theorem agree_outcome_spaces {s s' : State}
    (htables : ∀ n t, State.Runs (spaces settings source).ctx n s t → ¬ t.AtStrayComment)
    (h : (spaces settings source).Stands s s') (hs : s.cursor.Terminated)
    (hs' : s'.cursor.Terminated) :
    Agree (fun r r' => List.Forall₂ Block.Looser r.1 r'.1) (s.outcome (spaces settings source).ctx hs)
      (s'.outcome (spaces settings source).ctx' hs') := by
  -- The induction is on what the first run has left to read, since the other one may wait.
  obtain ⟨t, hstep, ht⟩ | hagree := h.follows_spaces (htables 0 s (.refl s))
  · rw [State.outcome_of_some hs hstep]
    exact agree_outcome_spaces (fun n u hu => htables _ u (.step hstep hu)) ht _ hs'
  · exact agree_outcome_of_step hagree hs hs' h.alike.blocks fun t t' _ _ hstep ht =>
      agree_outcome_spaces (fun n u hu => htables _ u (.step hstep hu)) ht _ _
termination_by s.weight
decreasing_by
  all_goals exact (State.step_progress hs hstep).weight_lt hs

theorem stands_spaces (settings : Settings) (hapart : Apart (source.tokens true))
    (hwhole : CountsWhole (source.tokens true)) :
    (spaces settings source).Stands (.initial { settings with keepComments := true } source)
      (.initial { settings with keepComments := false } source) := by
  have hpairs : (spaces settings source).Pairs false (source.cursor true).ahead
      (source.cursor false).ahead :=
    pairs_cursor trivial (fun _ => ⟨rfl, rfl, rfl, fun _ _ => rfl, rfl, rfl⟩)
      (source.looser_newLine true)
  exact Alike.stands ⟨.nil, .nil, .none⟩ (b := false) ⟨hpairs, State.terminated_initial _ _,
    State.terminated_initial _ _, fun _ => tame_cursor hapart fun _ => hwhole⟩

end Likeness

end Parse

/-! ## Documents -/

open Parse

variable {source : Text} {options : Options} {settings : Settings} {kept dropped : Parsed}

/-- What a source is read to with its comments kept and dropped. -/
theorem exists_outcomes_of_keeping (hsettings : (options.keeping true).resolve = .ok settings)
    (hkept : parseDocument source (options.keeping true) = .ok kept)
    (hdropped : parseDocument source (options.keeping false) = .ok dropped) :
    ∃ r r', outcomeOf { settings with keepComments := true } source = .ok r ∧
      outcomeOf { settings with keepComments := false } source = .ok r' ∧
      kept.document = ⟨.span 0 source.length, r.1.reverse, (LineTable.ofText source).toList⟩ ∧
      dropped.document = ⟨.span 0 source.length, r'.1.reverse, (LineTable.ofText source).toList⟩ := by
  obtain ⟨_, blocks, diagnostics, hresolve, hr, rfl⟩ := exists_of_parseDocument_ok hkept
  obtain ⟨_, blocks', diagnostics', hresolve', hr', rfl⟩ := exists_of_parseDocument_ok hdropped
  cases hresolve.symm.trans (Options.resolve_keeping hsettings true)
  cases hresolve'.symm.trans (Options.resolve_keeping hsettings false)
  exact ⟨(blocks, diagnostics), (blocks', diagnostics'), hr, hr', rfl, rfl⟩

/-- Trees that are the same but for their places are written alike. -/
theorem convert_keeping_eq (hsettings : (options.keeping true).resolve = .ok settings)
    (hkept : parseDocument source (options.keeping true) = .ok kept)
    (hdropped : parseDocument source (options.keeping false) = .ok dropped)
    (h : kept.document.mapOffsets (fun _ => ()) = dropped.document.mapOffsets fun _ => ()) :
    convert source (options.keeping true) = convert source (options.keeping false) := by
  obtain ⟨r, r', hr, hr', heq, heq'⟩ := exists_outcomes_of_keeping hsettings hkept hdropped
  rw [heq, heq'] at h
  have hbare : bare r.1 = bare r'.1 := by
    have hchildren := congrArg Document.children h
    rw [Document.mapOffsets, Document.mapOffsets, Block.mapAllOffsets_eq_map,
      Block.mapAllOffsets_eq_map, List.map_reverse, List.map_reverse] at hchildren
    exact List.reverse_injective hchildren
  rw [convert, convert,
    Concatenation.convertWithDiagnostics_of_outcomeOf (Options.resolve_keeping hsettings true) hr,
    Concatenation.convertWithDiagnostics_of_outcomeOf (Options.resolve_keeping hsettings false) hr']
  exact Concatenation.map_output_written hbare rfl _ _

/-- Where reading comes to comments in tables alone, a source is read with its comments kept if and
only if it is read with them dropped, under the same other options, as long as no comment stands before
an argument or in a count of columns.  The two trees are the same, but for their places and for spaces
and line breaks which the first one has more; and where it has no more of them, nothing else is left to
tell the trees or the outputs apart. -/
theorem parseDocument_tableComments (hsettings : (options.keeping true).resolve = .ok settings)
    (hapart : Apart (source.tokens true)) (hwhole : CountsWhole (source.tokens true))
    (htables : ∀ n s, State.Runs (.of settings source) n (.initial settings source) s →
      ¬ s.AtStrayComment) :
    ((∃ kept, parseDocument source (options.keeping true) = .ok kept) ↔
        ∃ dropped, parseDocument source (options.keeping false) = .ok dropped) ∧
      ∀ kept dropped, parseDocument source (options.keeping true) = .ok kept →
        parseDocument source (options.keeping false) = .ok dropped →
        List.Forall₂ Block.Looser kept.document.children dropped.document.children ∧
          (kept.document.mapOffsets (fun _ => ()) = dropped.document.mapOffsets (fun _ => ()) ↔
            kept.document.gaps = dropped.document.gaps) ∧
          (kept.document.gaps = dropped.document.gaps →
            convert source (options.keeping true) = convert source (options.keeping false)) := by
  have hkeep : settings = { settings with keepComments := true } :=
    Except.ok.inj (hsettings.symm.trans (Options.resolve_keeping hsettings true))
  rw [hkeep] at htables
  have hagree := Likeness.agree_outcome_spaces htables
    (Likeness.stands_spaces settings hapart hwhole) (State.terminated_initial _ _)
    (State.terminated_initial _ _)
  replace hagree : Agree (fun r r' => List.Forall₂ Block.Looser r.1 r'.1)
    (outcomeOf { settings with keepComments := true } source)
    (outcomeOf { settings with keepComments := false } source) := hagree
  refine ⟨?_, fun kept dropped hkept hdropped => ?_⟩
  · rw [exists_parseDocument_iff (Options.resolve_keeping hsettings true),
      exists_parseDocument_iff (Options.resolve_keeping hsettings false)]
    exact hagree.exists_ok_iff
  · obtain ⟨r, r', hr, hr', heq, heq'⟩ := exists_outcomes_of_keeping hsettings hkept hdropped
    rw [hr, hr'] at hagree
    obtain ⟨hblocks⟩ := hagree
    have hchildren : List.Forall₂ Block.Looser kept.document.children dropped.document.children := by
      rw [heq, heq']
      exact List.rel_reverse hblocks
    have hiff := Document.mapOffsets_eq_iff_gaps (by rw [heq, heq']) (by rw [heq, heq']) hchildren
    exact ⟨hchildren, hiff, fun hgaps =>
      convert_keeping_eq hsettings hkept hdropped (hiff.mpr hgaps)⟩

/-- Comments behind a row, before a spanning cell, and in strong text. -/
theorem parseDocument_tableComments_sample :
    let source : Text := "\\begin\x7btabular\x7d\x7bcc\x7da & b \\\\ % c\n% d\n"
      ++ "\\multicolumn\x7b2\x7d\x7bc\x7d\x7be\x7d\\\\f & \\textbf\x7bg % h\n\x7d\\end\x7btabular\x7d"
    let options : Options := {}
    let settings : Settings := { keepComments := true }
    (options.keeping true).resolve = .ok settings ∧ Apart (source.tokens true) ∧
      CountsWhole (source.tokens true) ∧
      (∀ n s, State.Runs (.of settings source) n (.initial settings source) s → ¬ s.AtStrayComment) ∧
      ∃ kept dropped, parseDocument source (options.keeping true) = .ok kept ∧
        parseDocument source (options.keeping false) = .ok dropped ∧
        kept.document.mapOffsets (fun _ => ()) = dropped.document.mapOffsets (fun _ => ()) ∧
        convert source (options.keeping true) = convert source (options.keeping false) := by
  intro source options settings
  have hsettings : (options.keeping true).resolve = .ok settings := rfl
  have hapart : Apart (source.tokens true) := by decide +kernel
  have hwhole : CountsWhole (source.tokens true) := by decide +kernel
  have hstays : State.staysInTables (.of settings source) (.initial settings source) 60 = true := by
    decide +kernel
  have htables := fun n s => State.not_atStrayComment (k := n) (t := s) hstays
  have hread : ∀ keep : Bool, (Document.parse { keepComments := keep } source).map (·.document.gaps)
      = .ok 0 := by
    decide +kernel
  obtain ⟨kept, hkept, hgaps⟩ := exists_of_parse_map hsettings (hread true)
  obtain ⟨dropped, hdropped, hgaps'⟩ :=
    exists_of_parse_map (Options.resolve_keeping hsettings false) (hread false)
  obtain ⟨-, hall⟩ := parseDocument_tableComments hsettings hapart hwhole htables
  obtain ⟨-, htrees, houtput⟩ := hall kept dropped hkept hdropped
  have heq := hgaps.trans hgaps'.symm
  exact ⟨hsettings, hapart, hwhole, htables, kept, dropped, hkept, hdropped, htrees.mpr heq,
    houtput heq⟩

/-- A comment and a line break within a word of a table. -/
def commentedWord : Text := "\\begin\x7btabular\x7d\x7bc\x7da%\nb\\end\x7btabular\x7d"

/-- The line break behind a comment in a table is a space if the comment is kept, and nothing if it is
dropped. -/
theorem not_forall_eq_tableComments :
    ¬ ∀ (source : Text) (options : Options) (settings : Settings) (kept dropped : Parsed),
      (options.keeping true).resolve = .ok settings →
      (∀ n s, State.Runs (.of settings source) n (.initial settings source) s →
        ¬ s.AtStrayComment) →
      parseDocument source (options.keeping true) = .ok kept →
      parseDocument source (options.keeping false) = .ok dropped →
      kept.document.mapOffsets (fun _ => ()) = dropped.document.mapOffsets fun _ => () := by
  intro hall
  have hsettings : (({} : Options).keeping true).resolve = .ok { keepComments := true } := rfl
  have hstays : State.staysInTables (.of { keepComments := true } commentedWord)
      (.initial { keepComments := true } commentedWord) 20 = true := by
    decide +kernel
  have hread : (Document.parse { keepComments := true } commentedWord).map (·.document.gaps) = .ok 1 := by
    decide +kernel
  have hread' : (Document.parse {} commentedWord).map (·.document.gaps) = .ok 0 := by
    decide +kernel
  obtain ⟨kept, hkept, hgaps⟩ := exists_of_parse_map hsettings hread
  obtain ⟨dropped, hdropped, hgaps'⟩ :=
    exists_of_parse_map (Options.resolve_keeping hsettings false) hread'
  have htrees := hall commentedWord {} _ kept dropped hsettings
    (fun n s => State.not_atStrayComment (k := n) (t := s) hstays) hkept hdropped
  rw [← kept.document.gaps_mapOffsets (fun _ => ()), htrees, Document.gaps_mapOffsets, hgaps'] at hgaps
  cases hgaps

/-- So do the trees differ where a comment stands before the distance of a forced break, or within a
count of columns. -/
example :
    let sources : List Text := [
      "\\begin\x7btabular\x7d\x7bc\x7da\\\\%\n[2pt]b\\end\x7btabular\x7d",
      "\\begin\x7btabular\x7d\x7bc\x7d\\multicolumn\x7b1%\n2\x7d\x7bc\x7d\x7ba\x7d\\end\x7btabular\x7d"]
    ∀ source ∈ sources, (convert source (({} : Options).keeping true)).toOption
      ≠ (convert source (({} : Options).keeping false)).toOption := by
  decide +kernel

end LatexMarkdown
