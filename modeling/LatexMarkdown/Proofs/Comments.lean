import LatexMarkdown.Proofs.Comments.Steps
import LatexMarkdown.Proofs.Spans
/-!
  Documents that are valid with their comments kept and with them dropped.

  Main statement: `parseDocument_keeping_iff`.  A source is read with its comments kept if and only if
  it is read with them dropped, where no comment stands before an argument (`Parse.Apart`), and no
  paragraph of a float that a comment begins comes to a command which the float would have dropped
  (`Parse.State.AtFloatCommand`).  Neither condition can be left out: an argument is looked for behind
  space alone (`not_forall_parseDocument_keeping_iff`), and in a paragraph the caption of a float is
  text with a brace behind it.

  The run that keeps comments is followed step by step (`Parse.Likeness.Follows.step`); the other
  one waits while comments are read.
-/
namespace LatexMarkdown

/-- The same options, with comments kept or dropped. -/
def Options.keeping (o : Options) (keep : Bool) : Options :=
  { o with preserveComments := some (.bool keep) }

namespace Parse

/-! ## Runs -/

/-- The states that reading comes to from `start`; the flag says that a paragraph is being read which
a comment began and which has had nothing of its own so far. -/
inductive State.Reads (ctx : Context) (start : State) : Bool → State → Prop
  | start : Reads ctx start false start
  | step {b : Bool} {s t : State} (h : Reads ctx start b s) (hs : s.step ctx = .ok (some t)) :
      Reads ctx start (s.commented b) t

namespace State

variable {ctx : Context} {start s : State} {b : Bool}

/-- Does reading come to its end in so many steps, and nowhere in a paragraph that a comment began to a
command that only a float drops? -/
def staysClear (ctx : Context) (begun : Bool) (s : State) : Nat → Bool
  | 0 => false
  | n + 1 =>
    !(begun && decide s.AtFloatCommand) &&
      match s.step ctx with
      | .ok (some t) => staysClear ctx (s.commented begun) t n
      | _ => true

/-- What is found by reading is so of every state that reading comes to. -/
theorem Reads.not_atFloatCommand {n : Nat} (hclear : staysClear ctx false start n = true)
    (h : Reads ctx start true s) : ¬ s.AtFloatCommand := by
  have hreads : ∀ {b s}, Reads ctx start b s → ∃ n, staysClear ctx b s n = true := by
    intro b s h
    induction h with
    | start => exact ⟨n, hclear⟩
    | step _ hs ih =>
      obtain ⟨k, hk⟩ := ih
      cases k with
      | zero => cases hk
      | succ k =>
        simp only [staysClear, hs, Bool.and_eq_true] at hk
        exact ⟨k, hk.2⟩
  obtain ⟨k, hk⟩ := hreads h
  cases k with
  | zero => cases hk
  | succ k =>
    simp only [staysClear, Bool.true_and, Bool.and_eq_true, Bool.not_eq_true',
      decide_eq_false_iff_not] at hk
    exact hk.1

end State

namespace Likeness

variable {settings : Settings} {source : Text}

/-- Where reading a source begins with its comments and without them. -/
theorem stands_comments (settings : Settings) (hapart : Apart (source.tokens true)) :
    (comments settings source).Stands (.initial { settings with keepComments := true } source)
      (.initial { settings with keepComments := false } source) := by
  exact Alike.stands ⟨trivial, .nil, .none⟩ (b := false) ⟨pairs_comments settings source,
    State.terminated_initial _ _, State.terminated_initial _ _, fun _ =>
      tame_cursor hapart False.elim⟩

/-- A run that keeps comments and the run that drops them both end, or both fail. -/
theorem agree_outcome_comments {start s s' : State} {b : Bool}
    (hfloat : ∀ s, State.Reads (comments settings source).ctx start true s → ¬ s.AtFloatCommand)
    (hreads : State.Reads (comments settings source).ctx start b s)
    (h : (comments settings source).Follows b s s') (hs : s.cursor.Terminated)
    (hs' : s'.cursor.Terminated) :
    Agree (fun _ _ => True) (s.outcome (comments settings source).ctx hs)
      (s'.outcome (comments settings source).ctx' hs') := by
  obtain ⟨t, hstep, ht⟩ | hagree := h.step fun hb => hfloat s (hb ▸ hreads)
  · rw [State.outcome_of_some hs hstep]
    exact agree_outcome_comments hfloat (hreads.step hstep) ht _ hs'
  · exact agree_outcome_of_step hagree hs hs' trivial fun t t' _ _ hstep ht =>
      agree_outcome_comments hfloat (hreads.step hstep) ht _ _
termination_by s.weight
decreasing_by
  all_goals exact (State.step_progress hs hstep).weight_lt hs

end Likeness

end Parse

/-! ## Documents -/

open Parse

variable {source : Text} {options : Options} {settings : Settings}

/-- The other options resolve to what they resolve to, whatever becomes of comments. -/
theorem Options.resolve_keeping (h : (options.keeping true).resolve = .ok settings) (keep : Bool) :
    (options.keeping keep).resolve = .ok { settings with keepComments := keep } := by
  have hread : ∀ keep : Bool, Options.read .preserveComments (some (.bool keep)) false readBool?
      = .ok keep := fun keep => rfl
  simp only [resolve, keeping, hread] at h ⊢
  obtain ⟨mathMode, hmath, h⟩ := exists_of_bind_ok h
  obtain ⟨offset, hoffset, h⟩ := exists_of_bind_ok h
  obtain ⟨_, hkeep, h⟩ := exists_of_bind_ok h
  obtain ⟨icon, hicon, h⟩ := exists_of_bind_ok h
  rw [hmath, hoffset, hicon, ← Except.ok.inj h]
  rfl

theorem exists_parseDocument_iff (h : options.resolve = .ok settings) :
    (∃ parsed, parseDocument source options = .ok parsed) ↔
      ∃ r, outcomeOf settings source = .ok r := by
  simp only [parseDocument, withSettings, h, Document.parse_eq]
  cases outcomeOf settings source with
  | error f => simp [Except.mapError]
  | ok r => simp [Except.mapError]

/-- A source is read with its comments kept if and only if it is read with them dropped, under the same
other options, where no comment stands before an argument, and where no paragraph of a float that a
comment begins comes to a command which the float would have dropped. -/
theorem parseDocument_keeping_iff (hsettings : (options.keeping true).resolve = .ok settings)
    (hapart : Apart (source.tokens true))
    (hfloat : ∀ s, State.Reads (.of settings source) (.initial settings source) true s →
      ¬ s.AtFloatCommand) :
    (∃ parsed, parseDocument source (options.keeping true) = .ok parsed) ↔
      ∃ parsed, parseDocument source (options.keeping false) = .ok parsed := by
  rw [exists_parseDocument_iff hsettings,
    exists_parseDocument_iff (Options.resolve_keeping hsettings false)]
  have hkeep : settings = { settings with keepComments := true } :=
    Except.ok.inj (hsettings.symm.trans (Options.resolve_keeping hsettings true))
  rw [hkeep] at hfloat ⊢
  have hagree := Likeness.agree_outcome_comments hfloat .start
    (.stands (Likeness.stands_comments settings hapart)) (State.terminated_initial _ _)
    (State.terminated_initial _ _)
  generalize hr : outcomeOf { settings with keepComments := true } source = r
  generalize hr' : outcomeOf { settings with keepComments := false } source = r'
  have hagree : Agree (fun _ _ => True) r r' := hr ▸ hr' ▸ hagree
  cases hagree with
  | ok => exact ⟨fun _ => ⟨_, rfl⟩, fun _ => ⟨_, rfl⟩⟩
  | error =>
    constructor
    · rintro ⟨_, h⟩
      cases h
    · rintro ⟨_, h⟩
      cases h

/-- Comments that begin paragraphs, in a heading, in a float, and in the rows of a table. -/
theorem parseDocument_keeping_iff_sample :
    let source : Text := "%a\n\\section\x7bb%c\n\x7d\\begin\x7btable\x7d%d\n\\centering\n"
      ++ "\\begin\x7btabular\x7d\x7bc\x7d\\hline%e\nf&%g\nh\\end\x7btabular\x7d\\end\x7btable\x7d"
    let options : Options := {}
    let settings : Settings := { keepComments := true }
    (options.keeping true).resolve = .ok settings ∧ Apart (source.tokens true) ∧
      (∀ s, State.Reads (.of settings source) (.initial settings source) true s → ¬ s.AtFloatCommand) ∧
      (∃ parsed, parseDocument source (options.keeping false) = .ok parsed) ∧
      ∃ parsed, parseDocument source (options.keeping true) = .ok parsed := by
  intro source options settings
  have hsettings : (options.keeping true).resolve = .ok settings := rfl
  have hapart : Apart (source.tokens true) := by decide +kernel
  have hclear : State.staysClear (.of settings source) false (.initial settings source) 60 = true := by
    decide +kernel
  have hfloat := fun s => State.Reads.not_atFloatCommand (s := s) hclear
  have hread : (Document.parse {} source).map (·.document.children.length) = .ok 2 := by
    decide +kernel
  have hresolve : (options.keeping false).resolve = .ok {} := rfl
  obtain ⟨parsed, hparsed, -⟩ := exists_of_parse_map hresolve hread
  have hdropped : ∃ parsed, parseDocument source (options.keeping false) = .ok parsed := ⟨parsed, hparsed⟩
  exact ⟨hsettings, hapart, hfloat, hdropped,
    (parseDocument_keeping_iff hsettings hapart hfloat).mpr hdropped⟩

/-- A comment between a command and its argument. -/
def commentedArgument : Text := "\\textbf%\n\x7ba\x7d"

/-- A document that is valid without its comments may be invalid with them. -/
theorem not_forall_parseDocument_keeping_iff :
    ¬ ∀ (source : Text) (options : Options) (settings : Settings),
      (options.keeping true).resolve = .ok settings →
        ((∃ parsed, parseDocument source (options.keeping true) = .ok parsed) ↔
          ∃ parsed, parseDocument source (options.keeping false) = .ok parsed) := by
  intro hall
  have hsettings : (({} : Options).keeping true).resolve = .ok { keepComments := true } := rfl
  have hread : (Document.parse {} commentedArgument).map (·.document.children.length) = .ok 1 := by
    decide +kernel
  have hresolve : (({} : Options).keeping false).resolve = .ok {} := rfl
  obtain ⟨parsed, hparsed, -⟩ := exists_of_parse_map hresolve hread
  obtain ⟨parsed', hkept⟩ := (hall commentedArgument {} _ hsettings).mpr ⟨parsed, hparsed⟩
  have hfails : (parseDocument commentedArgument (({} : Options).keeping true)).toOption.isNone := by
    decide +kernel
  rw [hkept] at hfails
  cases hfails

/-- So may one in which a comment comes before the caption of a float. -/
example :
    let source : Text := "\\begin\x7btable\x7d%\n\\caption\x7b\\section\x7d\\end\x7btable\x7d"
    Apart (source.tokens true) ∧
      (parseDocument source (({} : Options).keeping false)).toOption.isSome = true ∧
      (parseDocument source (({} : Options).keeping true)).toOption.isNone = true := by
  decide +kernel

end LatexMarkdown
