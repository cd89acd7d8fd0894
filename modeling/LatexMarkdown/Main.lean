import LatexMarkdown.CommandLine
/-!
  The program: the command line over real files and streams.
-/
open LatexMarkdown LatexMarkdown.CommandLine

/-- The surroundings of the process.  A file that cannot be opened is reported in the usual
words. -/
def processHost : Host IO where
  read name := do
    try
      return .ok (Text.ofString (← IO.FS.readFile name.toString))
    catch e => return .error (reason "open" name e)
  write name content := do
    try
      IO.FS.writeFile name.toString content.toString
      return .ok ()
    catch e => return .error (reason "open" name e)
  out line := IO.println line.toString
  err line := IO.eprintln line.toString
where
  /-- Why an operation on a file failed. -/
  reason (operation : String) (name : Text) : IO.Error → Text
    | .noFileOrDirectory _ _ _ =>
      "ENOENT: no such file or directory, " ++ Text.ofString operation ++ " '" ++ name ++ "'"
    | .permissionDenied _ _ _ =>
      "EACCES: permission denied, " ++ Text.ofString operation ++ " '" ++ name ++ "'"
    | e => Text.ofString (toString e)

def main (arguments : List String) : IO UInt32 := do
  match ← run processHost (arguments.map Text.ofString) with
  | .ok code => return code.toUInt32
  | .error e =>
    processHost.err e.message
    return 2
