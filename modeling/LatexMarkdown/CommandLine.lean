import LatexMarkdown.Conversion
import LatexMarkdown.Number.Reading
/-!
  The command line.

  `Arguments.ofList` reads the arguments and `CommandLine.run` does what they ask for.  A run sees
  its surroundings only as a `Host`: files by name, and two streams of lines.  It ends with 0 when
  everything was done and with 1 otherwise.  A document that there is no room for is not reported: its
  error goes on to the caller, and there is no code then.
-/
namespace LatexMarkdown

namespace CommandLine

/-- The help text. -/
def usage : Text := Text.join [0x0A]
  ["Usage: tex2notion <input.tex> [output.md] [options]",
   "",
   "Options:",
   "  --heading-offset=N     add N to every heading level (result clamped to 1..3)",
   "  --preserve-comments    keep % comments as text",
   "  --math-mode=katex      math delimiter dialect",
   "  --callout-icon=X       icon on the first line of quotes (empty for none)",
   "  -h, --help             show this message"]

/-- What the arguments of a run say. -/
structure Arguments where
  input? : Option Text := none
  output? : Option Text := none
  options : Options := {}
  help : Bool := false
  problem? : Option Text := none

/-- Arguments as they are read: names in the order given, and what the flags say. -/
structure Arguments.Reading where
  names : List Text := []
  arguments : Arguments := {}

/-- What follows `mark` in a text that begins with it. -/
def valueOf? (mark : Text) (argument : Text) : Option Text :=
  if mark.isPrefixOf argument then some (argument.drop mark.length) else none

/-- Reads one more argument.  Of several problems the first one counts. -/
def Arguments.Reading.next (r : Arguments.Reading) (argument : Text) : Arguments.Reading :=
  let a := r.arguments
  let o := a.options
  let withOptions (options : Options) : Arguments.Reading :=
    { r with arguments := { a with options } }
  if argument = "-h" ∨ argument = "--help" then { r with arguments := { a with help := true } }
  else if argument = "--preserve-comments" then
    withOptions { o with preserveComments := some (.bool true) }
  else
    match valueOf? "--heading-offset=" argument, valueOf? "--math-mode=" argument,
      valueOf? "--callout-icon=" argument with
    | some value, _, _ =>
      withOptions { o with headingLevelOffset := some (.number (Number.ofText value)) }
    | none, some value, _ => withOptions { o with mathMode := some (.text value) }
    | none, none, some value => withOptions { o with calloutIcon := some (.text value) }
    | none, none, none =>
      if (valueOf? "--" argument).isSome then
        let problem := "Unknown option: " ++ argument
        { r with arguments := { a with problem? := a.problem? <|> some problem } }
      else { r with names := r.names ++ [argument] }

/-- What a list of arguments says.  Two names are the input and the output. -/
def Arguments.ofList (arguments : List Text) : Arguments :=
  let r := arguments.foldl Arguments.Reading.next {}
  let a := r.arguments
  let unexpected : Option Text := r.names[2]?.map fun name => "Unexpected argument: " ++ name
  { a with
    input? := r.names[0]?
    output? := r.names[1]?
    problem? := a.problem? <|> unexpected }

/-- The surroundings of a run.  What cannot be read or written has a reason. -/
structure Host (m : Type → Type) where
  read : Text → m (Except Text Text)
  write : Text → Text → m (Except Text Unit)
  out : Text → m Unit
  err : Text → m Unit

/-- A diagnostic as a line. -/
def diagnosticLine (input : Text) (table : LineTable) (d : Diagnostic) : Text :=
  let p := table.position d.start
  input ++ ":" ++ Text.ofNat p.line ++ ":" ++ Text.ofNat p.column ++ ": warning: "
    ++ d.cause.message

variable {m : Type → Type} [Monad m]

/-- Hands over what a conversion gave: to the output file when there is one, else as a line. -/
def deliver (host : Host m) (input : Text) (output? : Option Text) (markdown : Text) : m Nat := do
  match output? with
  | none =>
    host.out markdown
    return 0
  | some output =>
    match ← host.write output (markdown ++ [0x0A]) with
    | .ok () =>
      host.out ("Converted " ++ input ++ " -> " ++ output)
      return 0
    | .error reason =>
      host.err ("error: cannot write '" ++ output ++ "': " ++ reason)
      return 1

/-- Converts the input file. -/
def convertFile (host : Host m) (input : Text) (output? : Option Text) (options : Options) :
    m (Except Markdown.SizeError Nat) := do
  match ← host.read input with
  | .error reason =>
    host.err ("error: cannot read '" ++ input ++ "': " ++ reason)
    return .ok 1
  | .ok source =>
    match convertWithDiagnostics source options with
    | .error (.size e) => return .error e
    | .error e =>
      host.err ("error: " ++ e.message)
      return .ok 1
    | .ok conversion =>
      let table := LineTable.ofText source
      conversion.diagnostics.forM fun d => host.err (diagnosticLine input table d)
      return .ok (← deliver host input output? conversion.output)

/-- Runs the command line. -/
def run (host : Host m) (arguments : List Text) : m (Except Markdown.SizeError Nat) := do
  let a := Arguments.ofList arguments
  if a.help then
    host.out usage
    return .ok 0
  match a.problem?, a.input?.filter (· ≠ []) with
  | none, some input => convertFile host input a.output? a.options
  | problem?, _ =>
    if let some problem := problem? then host.err problem
    host.err usage
    return .ok 1

end CommandLine

end LatexMarkdown
