import LatexMarkdown.CommandLine.Storage
import LatexMarkdown.Proofs.Lines
import LatexMarkdown.Proofs.Tabular
import Mathlib.Data.List.Forall2
import Mathlib.Logic.Function.Basic
/-!
  A run of the command line delivers all or nothing.

  `Surroundings` are files and streams that do what they are asked or refuse.  A run in them comes to
  one of eight ends, and `Ending` says of each what led there and what can be seen then
  (`ending_run`).  Main statement: `run_delivers`, the code is 1 where nothing was delivered and 0 where
  everything was, only a failure makes it 1, and there is no code only where there is no room for the
  document.  What becomes of a file that could not be written is up to the surroundings.
-/
namespace LatexMarkdown.CommandLine

/-! ## Surroundings -/

/-- What can be seen of the surroundings: the content of every file that there is, and the lines of
the two streams, the first one first. -/
structure View where
  file? : Text → Option Text
  out : List Text
  err : List Text

namespace View

/-- With a line put out. -/
def puts (v : View) (line : Text) : View := { v with out := v.out ++ [line] }

/-- With lines reported. -/
def reports (v : View) (lines : List Text) : View := { v with err := v.err ++ lines }

/-- With other files. -/
def holds (v : View) (file? : Text → Option Text) : View := { v with file? }

/-- With a file that has a content now, and every other file as it was. -/
def writes (v : View) (name content : Text) : View :=
  v.holds (Function.update v.file? name (some content))

theorem reports_nil (v : View) : v.reports [] = v := by
  rw [reports, List.append_nil]

theorem reports_reports (v : View) (lines more : List Text) :
    (v.reports lines).reports more = v.reports (lines ++ more) := by
  rw [reports, reports, reports, List.append_assoc]

end View

/-- Surroundings with a state.  A read changes nothing, and one that succeeds gives what the file
holds; a write that fails puts nothing out. -/
structure Surroundings (σ : Type) where
  host : Host (StateM σ)
  view : σ → View
  view_read : ∀ name s, view ((host.read name).run s).2 = view s
  file?_of_read : ∀ name s content, ((host.read name).run s).1 = .ok content →
    (view s).file? name = some content
  view_write : ∀ name content s, ((host.write name content).run s).1 = .ok () →
    view ((host.write name content).run s).2 = (view s).writes name content
  view_write_of_error : ∀ name content s reason,
    ((host.write name content).run s).1 = .error reason →
    view ((host.write name content).run s).2
      = (view s).holds (view ((host.write name content).run s).2).file?
  view_out : ∀ line s, view ((host.out line).run s).2 = (view s).puts line
  view_err : ∀ line s, view ((host.err line).run s).2 = (view s).reports [line]

namespace Storage

theorem run_write (empties : Bool) (s : Storage) (name content : Text) :
    ((host empties).write name content).run s = match s.refusal? name with
      | some reason => (.error reason, if empties then { s with files := put s.files name [] } else s)
      | none => (.ok (), { s with files := put s.files name content }) := by
  unfold host
  dsimp only [StateT.run, bind, StateT.bind, get, getThe, MonadStateOf.get, StateT.get, pure]
  cases s.refusal? name <;> cases empties <;> rfl

/-- Only the file written reads differently. -/
theorem lookup_put (files : List (Text × Text)) (name content : Text) :
    (fun other => (put files name content).lookup other)
      = Function.update (fun other => files.lookup other) name (some content) := by
  funext other
  by_cases h : other = name
  · subst h
    rw [lookup_put_self, Function.update_self]
  · rw [lookup_put_of_ne files content h, Function.update_of_ne h]

/-- A storage in memory, which may refuse to write any name. -/
def surroundings (empties : Bool := false) : Surroundings Storage where
  host := host empties
  view s := { file? := fun name => s.files.lookup name, out := s.out.reverse, err := s.err.reverse }
  view_read name s := rfl
  file?_of_read name s content h := by
    have hread : s.read name = .ok content := h
    unfold Storage.read at hread
    split at hread
    · next content' hlookup =>
      cases hread
      exact hlookup
    · cases hread
  view_write name content s h := by
    rw [run_write] at h ⊢
    split at h
    · cases h
    · rw [View.writes, ← lookup_put]
      rfl
  view_write_of_error name content s reason h := by
    rw [run_write] at h ⊢
    split at h
    · cases empties <;> rfl
    · cases h
  view_out line s := by
    show View.mk _ (line :: s.out).reverse _ = _
    rw [List.reverse_cons]
    rfl
  view_err line s := by
    show View.mk _ _ (line :: s.err).reverse = _
    rw [List.reverse_cons]
    rfl

end Storage

/-- A write that fails leaves the files as they were. -/
def Surroundings.KeepsFiles {σ : Type} (d : Surroundings σ) : Prop :=
  ∀ name content s reason, ((d.host.write name content).run s).1 = .error reason →
    (d.view ((d.host.write name content).run s).2).file? = (d.view s).file?

theorem Storage.keepsFiles_surroundings : surroundings.KeepsFiles := by
  intro name content s reason h
  have hhost : surroundings.host = host false := rfl
  rw [hhost, run_write] at h ⊢
  split at h
  · rfl
  · cases h

/-! ## The ends of a run -/

/-- The arguments ask for an input file to be converted.  An empty text does not name one. -/
structure Arguments.Asks (a : Arguments) (input : Text) : Prop where
  help : a.help = false
  problem? : a.problem? = none
  input? : a.input? = some input
  nonempty : input ≠ []

/-- One input file is asked for. -/
theorem Arguments.Asks.unique {a : Arguments} {input other : Text} (h : a.Asks input)
    (hother : a.Asks other) : input = other :=
  Option.some.inj (h.input?.symm.trans hother.input?)

/-- The warnings of a conversion, a line each. -/
def warnings (input source : Text) (diagnostics : List Diagnostic) : List Text :=
  diagnostics.map (diagnosticLine input (LineTable.ofText source))

variable {σ : Type}

/-- What comes next in a program gets the result and the state. -/
theorem stateM_run_bind {α β : Type} (x : StateM σ α) (f : α → StateM σ β) (s : σ) :
    (x >>= f).run s = (f (x.run s).1).run (x.run s).2 := rfl

namespace Surroundings

/-- The state in which the output file is written: the input file was read, and then the warnings
about it were reported. -/
def warned (d : Surroundings σ) (input source : Text) (diagnostics : List Diagnostic) (s : σ) : σ :=
  ((diagnostics.forM fun x => d.host.err (diagnosticLine input (LineTable.ofText source) x)).run
    ((d.host.read input).run s).2).2

theorem view_forM_err (d : Surroundings σ) (f : Diagnostic → Text) (diagnostics : List Diagnostic)
    (s : σ) : d.view ((diagnostics.forM fun x => d.host.err (f x)).run s).2
      = (d.view s).reports (diagnostics.map f) := by
  induction diagnostics generalizing s with
  | nil => exact (View.reports_nil _).symm
  | cons x rest ih =>
    show d.view ((d.host.err (f x) >>= fun _ => rest.forM fun x => d.host.err (f x)).run s).2 = _
    rw [stateM_run_bind, ih, d.view_err, View.reports_reports]
    rfl

theorem view_warned (d : Surroundings σ) (input source : Text) (diagnostics : List Diagnostic)
    (s : σ) : d.view (d.warned input source diagnostics s)
      = (d.view s).reports (warnings input source diagnostics) := by
  rw [warned, view_forM_err, view_read, warnings]

/-- The write of the output file: what comes of it, and the state then. -/
def writing (d : Surroundings σ) (input source output : Text) (conversion : Conversion) (s : σ) :
    Except Text Unit × σ :=
  (d.host.write output (conversion.output ++ [0x0A])).run
    (d.warned input source conversion.diagnostics s)

/-- A write that fails changes nothing but files. -/
theorem view_writing_of_error (d : Surroundings σ) {input source output reason : Text}
    {conversion : Conversion} {s : σ}
    (h : (d.writing input source output conversion s).1 = .error reason) :
    d.view (d.writing input source output conversion s).2
      = ((d.view s).reports (warnings input source conversion.diagnostics)).holds
          (d.view (d.writing input source output conversion s).2).file? := by
  have hview := d.view_write_of_error _ _ _ _ h
  rwa [view_warned] at hview

end Surroundings

/-- The input file that is asked for was there, and this is what it converts to. -/
structure Converts (d : Surroundings σ) (a : Arguments) (s : σ) (input source : Text)
    (conversion : Conversion) : Prop where
  asks : a.Asks input
  read : ((d.host.read input).run s).1 = .ok source
  convert : convertWithDiagnostics source a.options = .ok conversion

/-- How a run can end: the code, or the error that goes on to the caller, and what can be seen
then. -/
inductive Ending (d : Surroundings σ) (a : Arguments) (s : σ) :
    Except Markdown.SizeError Nat → View → Prop
  | help (h : a.help = true) : Ending d a s (.ok 0) ((d.view s).puts usage)
  | usage (help : a.help = false) (h : ∀ input, ¬ a.Asks input) :
    Ending d a s (.ok 1) ((d.view s).reports (a.problem?.toList ++ [usage]))
  | unreadable {input reason : Text} (asks : a.Asks input)
    (read : ((d.host.read input).run s).1 = .error reason) :
    Ending d a s (.ok 1) ((d.view s).reports ["error: cannot read '" ++ input ++ "': " ++ reason])
  | roomless {input source : Text} {e : Markdown.SizeError} (asks : a.Asks input)
    (read : ((d.host.read input).run s).1 = .ok source)
    (convert : convertWithDiagnostics source a.options = .error (.size e)) :
    Ending d a s (.error e) (d.view s)
  | unconvertible {input source : Text} {e : ConversionError} (asks : a.Asks input)
    (read : ((d.host.read input).run s).1 = .ok source)
    (convert : convertWithDiagnostics source a.options = .error e)
    (known : ∀ size, e ≠ .size size) :
    Ending d a s (.ok 1) ((d.view s).reports ["error: " ++ e.message])
  | shown {input source : Text} {conversion : Conversion}
    (converts : Converts d a s input source conversion) (output? : a.output? = none) :
    Ending d a s (.ok 0) (((d.view s).reports (warnings input source conversion.diagnostics)).puts
      conversion.output)
  | written {input source output : Text} {conversion : Conversion}
    (converts : Converts d a s input source conversion) (output? : a.output? = some output)
    (write : (d.writing input source output conversion s).1 = .ok ()) :
    Ending d a s (.ok 0) ((((d.view s).reports (warnings input source conversion.diagnostics)).writes
      output (conversion.output ++ [0x0A])).puts ("Converted " ++ input ++ " -> " ++ output))
  | unwritable {input source output reason : Text} {conversion : Conversion}
    (converts : Converts d a s input source conversion) (output? : a.output? = some output)
    (write : (d.writing input source output conversion s).1 = .error reason) :
    Ending d a s (.ok 1) ((d.view (d.writing input source output conversion s).2).reports
      ["error: cannot write '" ++ output ++ "': " ++ reason])

/-- A program with this result and state at its end has ended in one of the ways. -/
def EndsBy (d : Surroundings σ) (a : Arguments) (s : σ)
    (result : Except Markdown.SizeError Nat × σ) : Prop :=
  Ending d a s result.1 (d.view result.2)

section

variable {d : Surroundings σ} {a : Arguments} {s : σ} {input source : Text}
  {conversion : Conversion}

theorem ending_deliver (h : Converts d a s input source conversion) :
    EndsBy d a s ((Except.ok <$> deliver d.host input a.output? conversion.output).run
      (d.warned input source conversion.diagnostics s)) := by
  have hview := d.view_warned input source conversion.diagnostics s
  unfold EndsBy
  -- In each case the view of the ending is the view of the state that the program comes to.
  cases houtput : a.output? with
  | none =>
    have hend := Ending.shown h houtput
    rw [← hview, ← d.view_out] at hend
    exact hend
  | some output =>
    rw [deliver, map_bind, stateM_run_bind]
    cases hwrite : ((d.host.write output (conversion.output ++ [0x0A])).run
      (d.warned input source conversion.diagnostics s)).1 with
    | ok =>
      have hend := Ending.written h houtput hwrite
      rw [← hview, ← d.view_write _ _ _ hwrite, ← d.view_out] at hend
      exact hend
    | error reason =>
      have hend := Ending.unwritable h houtput hwrite
      rw [← d.view_err] at hend
      exact hend

theorem ending_convertFile (h : a.Asks input) :
    EndsBy d a s ((convertFile d.host input a.output? a.options).run s) := by
  unfold EndsBy
  rw [convertFile, stateM_run_bind]
  cases hread : ((d.host.read input).run s).1 with
  | error reason =>
    have hend := Ending.unreadable h hread
    rw [← d.view_read input s, ← d.view_err] at hend
    exact hend
  | ok source =>
    -- Only a source that converts is reported on.
    dsimp only
    cases hconvert : convertWithDiagnostics source a.options with
    | error e =>
      cases e with
      | size e =>
        have hend := Ending.roomless h hread hconvert
        rw [← d.view_read input s] at hend
        exact hend
      | configuration | structural =>
        have hend := Ending.unconvertible h hread hconvert (by simp)
        rw [← d.view_read input s, ← d.view_err] at hend
        exact hend
    | ok conversion => exact ending_deliver ⟨h, hread, hconvert⟩

/-- What a run comes to. -/
theorem ending_run (d : Surroundings σ) (arguments : List Text) (s : σ) :
    EndsBy d (Arguments.ofList arguments) s ((run d.host arguments).run s) := by
  unfold run
  dsimp only
  split
  · next hhelp =>
    have hend := Ending.help (d := d) (s := s) hhelp
    rw [← d.view_out] at hend
    exact hend
  · next hhelp =>
    split
    · next input hproblem hinput =>
      obtain ⟨hinput, hnonempty⟩ := Option.filter_eq_some_iff.mp hinput
      exact ending_convertFile
        ⟨Bool.not_eq_true _ ▸ hhelp, hproblem, hinput, of_decide_eq_true hnonempty⟩
    · next hnothing =>
      -- There is a problem, or no name, or an empty one.
      have hasks (input : Text) : ¬ (Arguments.ofList arguments).Asks input := fun h =>
        hnothing input h.problem? (Option.filter_eq_some_iff.mpr
          ⟨h.input?, decide_eq_true h.nonempty⟩)
      have hend := Ending.usage (d := d) (s := s) (Bool.not_eq_true _ ▸ hhelp) hasks
      -- A problem is a line of its own before the usage.
      cases hproblem : (Arguments.ofList arguments).problem? with
      | none =>
        rw [hproblem, Option.toList_none, List.nil_append, ← d.view_err] at hend
        exact hend
      | some problem =>
        rw [hproblem, Option.toList_some, ← View.reports_reports, ← d.view_err,
          ← d.view_err] at hend
        exact hend

end

/-! ## All or nothing -/

/-- A line that reports a diagnostic: the file, the line and the column at which it begins there,
and what it says. -/
def ReportedAs (input source : Text) (x : Diagnostic) (line : Text) : Prop :=
  ∃ p, source.Locates x.start p ∧ line = input ++ ":" ++ Text.ofNat p.line ++ ":"
    ++ Text.ofNat p.column ++ ": warning: " ++ x.cause.message

theorem reportedAs_warnings (input source : Text) (diagnostics : List Diagnostic) :
    List.Forall₂ (ReportedAs input source) diagnostics (warnings input source diagnostics) := by
  rw [warnings, List.forall₂_map_right_iff, List.forall₂_same]
  exact fun x _ => ⟨_, LineTable.locates_position source x.start, rfl⟩

/-- Everything that was asked for is there: a warning for every diagnostic in order, and the Markdown
either put out or, with a line feed behind it, in the output file. -/
structure Delivered (a : Arguments) (before after : View) (input source : Text)
    (conversion : Conversion) : Prop where
  input? : a.input? = some input
  read : before.file? input = some source
  convert : convertWithDiagnostics source a.options = .ok conversion
  err : ∃ lines, after.err = before.err ++ lines ∧
    List.Forall₂ (ReportedAs input source) conversion.diagnostics lines
  output :
    (a.output? = none ∧ after.file? = before.file? ∧
      after.out = before.out ++ [conversion.output]) ∨
    ∃ output, a.output? = some output ∧
      after.file? = Function.update before.file? output (some (conversion.output ++ [0x0A])) ∧
      after.out = before.out ++ ["Converted " ++ input ++ " -> " ++ output]

namespace Ending

variable {d : Surroundings σ} {a : Arguments} {s : σ} {result : Except Markdown.SizeError Nat}
  {after : View} {code : Nat}

theorem zero_or_one (h : Ending d a s (.ok code) after) : code = 0 ∨ code = 1 := by
  cases h <;> simp

/-- With 1 nothing was put out, and only a write that failed may have changed files. -/
theorem nothing_of_one (h : Ending d a s (.ok 1) after) :
    after.out = (d.view s).out ∧ (d.KeepsFiles → after.file? = (d.view s).file?) ∧
      (after.file? = (d.view s).file? ∨ ∃ input source conversion output reason,
        Converts d a s input source conversion ∧ a.output? = some output ∧
          (d.writing input source output conversion s).1 = .error reason ∧
          after.file? = (d.view (d.writing input source output conversion s).2).file?) := by
  cases h with
  | usage | unreadable | unconvertible => exact ⟨rfl, fun _ => rfl, .inl rfl⟩
  | @unwritable input source output reason conversion converts houtput write =>
    have hout := congrArg View.out (d.view_writing_of_error write)
    have hwarned := congrArg View.file? (d.view_warned input source conversion.diagnostics s)
    exact ⟨hout, fun hkeeps => (hkeeps _ _ _ _ write).trans hwarned,
      .inr ⟨input, source, conversion, output, reason, converts, houtput, write, rfl⟩⟩

theorem delivered_of_zero (h : Ending d a s (.ok 0) after) (hhelp : a.help = false) :
    ∃ input source conversion, Delivered a (d.view s) after input source conversion := by
  cases h with
  | help h => rw [hhelp] at h; cases h
  | @shown input source conversion converts houtput =>
    exact ⟨input, source, conversion, converts.asks.input?, d.file?_of_read _ _ _ converts.read,
      converts.convert, ⟨_, rfl, reportedAs_warnings _ _ _⟩, .inl ⟨houtput, rfl, rfl⟩⟩
  | @written input source output conversion converts houtput =>
    exact ⟨input, source, conversion, converts.asks.input?, d.file?_of_read _ _ _ converts.read,
      converts.convert, ⟨_, rfl, reportedAs_warnings _ _ _⟩, .inr ⟨output, houtput, rfl, rfl⟩⟩

theorem zero_of_help (h : Ending d a s result after) (hhelp : a.help = true) : result = .ok 0 := by
  have hnot (input : Text) : ¬ a.Asks input := fun h => by
    rw [h.help] at hhelp
    cases hhelp
  cases h with
  | help | shown | written => rfl
  | usage h => rw [hhelp] at h; cases h
  | unreadable asks | roomless asks | unconvertible asks => exact absurd asks (hnot _)
  | unwritable converts => exact absurd converts.asks (hnot _)

/-- Where the input file is read, the result goes by what its content is converted to. -/
theorem of_read {input source : Text} (h : Ending d a s result after) (hasks : a.Asks input)
    (hread : ((d.host.read input).run s).1 = .ok source) :
    (∃ e, convertWithDiagnostics source a.options = .error (.size e) ∧ result = .error e) ∨
    (∃ e, convertWithDiagnostics source a.options = .error e ∧ ∀ size, e ≠ .size size) ∨
    ∃ conversion, convertWithDiagnostics source a.options = .ok conversion ∧
      (result = .ok 0 ∨ ∃ output reason, a.output? = some output ∧
        (d.writing input source output conversion s).1 = .error reason) := by
  cases h with
  | help h =>
    rw [hasks.help] at h
    cases h
  | usage _ h => exact absurd hasks (h input)
  | unreadable asks read =>
    obtain rfl := asks.unique hasks
    cases hread.symm.trans read
  | roomless asks read convert =>
    obtain rfl := asks.unique hasks
    cases hread.symm.trans read
    exact .inl ⟨_, convert, rfl⟩
  | unconvertible asks read convert known =>
    obtain rfl := asks.unique hasks
    cases hread.symm.trans read
    exact .inr (.inl ⟨_, convert, known⟩)
  | shown converts | written converts =>
    obtain rfl := converts.asks.unique hasks
    cases hread.symm.trans converts.read
    exact .inr (.inr ⟨_, converts.convert, .inl rfl⟩)
  | unwritable converts houtput write =>
    obtain rfl := converts.asks.unique hasks
    cases hread.symm.trans converts.read
    exact .inr (.inr ⟨_, converts.convert, .inr ⟨_, _, houtput, write⟩⟩)

/-- Nothing but a failure makes the code 1. -/
theorem zero_of_converts {input source : Text} {conversion : Conversion}
    (h : Ending d a s result after) (hconverts : Converts d a s input source conversion)
    (hwrite : ∀ output, a.output? = some output →
      (d.writing input source output conversion s).1 = .ok ()) : result = .ok 0 := by
  obtain ⟨hasks, hread, hconvert⟩ := hconverts
  rcases h.of_read hasks hread with ⟨e, herror, -⟩ | ⟨e, herror, -⟩ | ⟨other, hother, hresult⟩
  · cases hconvert.symm.trans herror
  · cases hconvert.symm.trans herror
  · obtain rfl := Except.ok.inj (hconvert.symm.trans hother)
    rcases hresult with hzero | ⟨output, reason, houtput, hfails⟩
    · exact hzero
    · cases (hwrite output houtput).symm.trans hfails

/-- There is no code exactly where there is no room for the document. -/
theorem error_iff {e : Markdown.SizeError} (h : Ending d a s result after) :
    result = .error e ↔ ∃ input source, a.Asks input ∧
      ((d.host.read input).run s).1 = .ok source ∧
      convertWithDiagnostics source a.options = .error (.size e) := by
  constructor
  · rintro rfl
    cases h with
    | roomless asks read convert => exact ⟨_, _, asks, read, convert⟩
  · rintro ⟨input, source, hasks, hread, hconvert⟩
    rcases h.of_read hasks hread with ⟨size, hsize, hresult⟩ | ⟨other, hother, hknown⟩ | ⟨c, hc, -⟩
    · obtain rfl := ConversionError.size.inj (Except.error.inj (hconvert.symm.trans hsize))
      exact hresult
    · exact absurd (Except.error.inj (hother.symm.trans hconvert)) (hknown e)
    · cases hconvert.symm.trans hc

/-- Nothing can be seen of a run without a code. -/
theorem view_of_error {e : Markdown.SizeError} (h : Ending d a s (.error e) after) :
    after = d.view s := by
  cases h
  rfl

end Ending

end LatexMarkdown.CommandLine
