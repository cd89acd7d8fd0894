import LatexMarkdown.Parse.Progress
import LatexMarkdown.Token.Scanner
/-!
  Reading a document.

  `State.run` steps until the end of the document or the first failure; it ends because every step
  gets on.  `Document.parse` scans a source, runs over its tokens and gives failures their place.
-/
namespace LatexMarkdown

namespace Parse

/-- Steps until the end of the document. -/
def State.run (ctx : Context) (s : State) (h : s.cursor.Terminated) : Except Failure State :=
  match hs : s.step ctx with
  | .error failure => .error failure
  | .ok none => .ok s
  | .ok (some next) => State.run ctx next ((State.step_progress h hs).terminated h)
  termination_by s.weight
  decreasing_by exact (State.step_progress h hs).weight_lt h

end Parse

/-- At the first token of a text. -/
def Text.cursor (source : Text) (keepComments : Bool := false) : Cursor :=
  .ofTokens (source.tokens keepComments)

theorem Text.terminated_cursor (source : Text) (keepComments : Bool) :
    (source.cursor keepComments).Terminated := by
  obtain ⟨_, ht, hk⟩ := (Scanner.ofText source keepComments).exists_getLast?_tokens
  exact Cursor.terminated_ofTokens ht hk

/-- A document and the diagnostics about its source, in the order in which they came up. -/
structure Parsed where
  document : Document
  diagnostics : List Diagnostic

/-- Reads a source under the given settings. -/
def Document.parse (settings : Settings) (source : Text) : Except StructuralError Parsed :=
  let table := LineTable.ofText source
  let cursor := source.cursor settings.keepComments
  let ctx : Parse.Context := { source := source.toArray, settings }
  match Parse.State.run ctx { cursor } (source.terminated_cursor settings.keepComments) with
  | .error ⟨flaw, marker⟩ =>
    let offset := marker.token.start
    .error ⟨flaw, offset, marker.index, table.position offset⟩
  | .ok s =>
    .ok {
      document :=
        { info := .span 0 source.length
          children := s.blocks.reverse
          lineStarts := table.toList }
      diagnostics := s.diagnostics.reverse }

end LatexMarkdown
