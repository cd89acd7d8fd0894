import LatexMarkdown.CommandLine
/-!
  A host in memory.

  Files are an association list of names and contents; lines that were put out are kept.  Writing
  may be refused, and a host may have emptied the file by then or not.
-/
namespace LatexMarkdown.CommandLine

/-- Files by name, the lines put out so far, the last one first, and the reason for which a name
cannot be written. -/
structure Storage where
  files : List (Text × Text) := []
  refusal? : Text → Option Text := fun _ => none
  out : List Text := []
  err : List Text := []

namespace Storage

/-- Why a name that is not there cannot be opened. -/
def missing (name : Text) : Text := "ENOENT: no such file or directory, open '" ++ name ++ "'"

/-- The folder of a name, up to and with its last slash; empty when it has none. -/
def folder (name : Text) : Text := (name.reverse.dropWhile (· != 0x2F)).reverse

/-- Why a name cannot be written where folders have to be there: it is empty, or no file lies in its
folder. -/
def missingFolder? (files : List (Text × Text)) (name : Text) : Option Text :=
  let inFolder := folder name = [] ∨ files.any fun (other, _) => (folder name).isPrefixOf other
  if name = [] ∨ ¬inFolder then some (missing name) else none

/-- The content of a file. -/
def read (s : Storage) (name : Text) : Except Text Text :=
  match s.files.lookup name with
  | some content => .ok content
  | none => .error (missing name)

/-- The files with one written: in its place when it is there, else at the end. -/
def put (files : List (Text × Text)) (name content : Text) : List (Text × Text) :=
  match files with
  | [] => [(name, content)]
  | (n, c) :: rest =>
    if n = name then (name, content) :: rest else (n, c) :: put rest name content

/-- A storage as the surroundings of a run; `empties` says whether a refused write leaves an empty
file. -/
def host (empties : Bool := false) : Host (StateM Storage) where
  read name := do return (← get).read name
  write name content := do
    let s ← get
    match s.refusal? name with
    | some reason =>
      if empties then set { s with files := put s.files name [] }
      return .error reason
    | none =>
      set { s with files := put s.files name content }
      return .ok ()
  out line := modify fun s => { s with out := line :: s.out }
  err line := modify fun s => { s with err := line :: s.err }

theorem lookup_put_self (files : List (Text × Text)) (name content : Text) :
    (put files name content).lookup name = some content := by
  induction files with
  | nil => simp [put]
  | cons f rest ih =>
    obtain ⟨n, c⟩ := f
    by_cases h : n = name
    · simp [put, h]
    · have hb : (name == n) = false := beq_eq_false_iff_ne.mpr (Ne.symm h)
      simp [put, h, List.lookup_cons, hb, ih]

theorem lookup_put_of_ne (files : List (Text × Text)) {name other : Text} (content : Text)
    (h : other ≠ name) : (put files name content).lookup other = files.lookup other := by
  have hb : (other == name) = false := beq_eq_false_iff_ne.mpr h
  induction files with
  | nil => simp [put, List.lookup_cons, hb]
  | cons f rest ih =>
    obtain ⟨n, c⟩ := f
    by_cases hn : n = name
    · subst hn
      simp [put, List.lookup_cons, hb]
    · simp [put, hn, List.lookup_cons, ih]

end Storage

end LatexMarkdown.CommandLine
