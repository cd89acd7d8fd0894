import LatexMarkdown.Token
import LatexMarkdown.Position
import LatexMarkdown.Token.Lexeme
import LatexMarkdown.Token.Scanner
import LatexMarkdown.Token.Cursor
import LatexMarkdown.Token.Lookahead
import LatexMarkdown.Token.CodeClass
import LatexMarkdown.Document
import LatexMarkdown.Document.Query
import LatexMarkdown.Document.Fragments
import LatexMarkdown.Vocabulary
import LatexMarkdown.Number
import LatexMarkdown.Number.Arithmetic
import LatexMarkdown.Number.Shortest
import LatexMarkdown.Number.Reading
import LatexMarkdown.Settings
import LatexMarkdown.Text.CaseTable
import LatexMarkdown.Text.LowerCase
import LatexMarkdown.Diagnostic
import LatexMarkdown.Parse.Argument
import LatexMarkdown.Parse.CodeBody
import LatexMarkdown.Parse.State
import LatexMarkdown.Parse.Inline
import LatexMarkdown.Parse.Block
import LatexMarkdown.Parse.Progress
import LatexMarkdown.Markdown
import LatexMarkdown.Conversion
import LatexMarkdown.CommandLine
import LatexMarkdown.CommandLine.Storage
import LatexMarkdown.Main
import LatexMarkdown.Proofs.Lexemes
import LatexMarkdown.Proofs.Tiling
import LatexMarkdown.Proofs.Lines
import LatexMarkdown.Proofs.Running
import LatexMarkdown.Proofs.Nesting
import LatexMarkdown.Proofs.Facing
import LatexMarkdown.Proofs.Spacing
import LatexMarkdown.Proofs.Outline.Tree
import LatexMarkdown.Proofs.Outline
import LatexMarkdown.Proofs.Formatting.Markup
import LatexMarkdown.Proofs.Formatting
import LatexMarkdown.Proofs.Embedding.Content
import LatexMarkdown.Proofs.Embedding.Frame
import LatexMarkdown.Proofs.Embedding.Reading
import LatexMarkdown.Proofs.Embedding.State
import LatexMarkdown.Proofs.Embedding.Inline
import LatexMarkdown.Proofs.Embedding.Closing
import LatexMarkdown.Proofs.Embedding.Opening
import LatexMarkdown.Proofs.Embedding.Edges
import LatexMarkdown.Proofs.Embedding.Runs
import LatexMarkdown.Proofs.Embedding.Ending
import LatexMarkdown.Proofs.Embedding.Lexing
import LatexMarkdown.Proofs.Embedding.Tokens
import LatexMarkdown.Proofs.Embedding.Joining
import LatexMarkdown.Proofs.Rendering
import LatexMarkdown.Proofs.Showing
import LatexMarkdown.Proofs.Concatenation
import LatexMarkdown.Proofs.Dropping
import LatexMarkdown.Proofs.Dropping.Lexing
import LatexMarkdown.Proofs.Dropping.Content
import LatexMarkdown.Proofs.Steps.Change
import LatexMarkdown.Proofs.Steps.Inline
import LatexMarkdown.Proofs.Steps.Block
import LatexMarkdown.Proofs.Steps
import LatexMarkdown.Proofs.Markers
import LatexMarkdown.Proofs.RawBodies
import LatexMarkdown.Proofs.Blame
import LatexMarkdown.Proofs.Spans.Laid
import LatexMarkdown.Proofs.Spans.Reading
import LatexMarkdown.Proofs.Spans.Finished
import LatexMarkdown.Proofs.Spans.State
import LatexMarkdown.Proofs.Spans.Change
import LatexMarkdown.Proofs.Spans
import LatexMarkdown.Proofs.Making
import LatexMarkdown.Proofs.Making.Change
import LatexMarkdown.Proofs.Columns
import LatexMarkdown.Proofs.Unbroken.Pieces
import LatexMarkdown.Proofs.Unbroken.Lines
import LatexMarkdown.Proofs.Unbroken.Output
import LatexMarkdown.Proofs.Unbroken
import LatexMarkdown.Proofs.Fencing
import LatexMarkdown.Proofs.Mathematics
import LatexMarkdown.Proofs.Likeness.Relation
import LatexMarkdown.Proofs.Likeness.Reading
import LatexMarkdown.Proofs.Likeness.State
import LatexMarkdown.Proofs.Likeness.Inline
import LatexMarkdown.Proofs.Likeness.Block
import LatexMarkdown.Proofs.Likeness
import LatexMarkdown.Proofs.LineEndings.Returns
import LatexMarkdown.Proofs.LineEndings.Lexing
import LatexMarkdown.Proofs.LineEndings.Content
import LatexMarkdown.Proofs.LineEndings.Output
import LatexMarkdown.Proofs.LineEndings
import LatexMarkdown.Proofs.Comments.Tokens
import LatexMarkdown.Proofs.Comments.Steps
import LatexMarkdown.Proofs.Comments
import LatexMarkdown.Proofs.NormalForm
import LatexMarkdown.Proofs.Reports.Marks
import LatexMarkdown.Proofs.Reports.Tally
import LatexMarkdown.Proofs.Reports
import LatexMarkdown.Proofs.Numerals
import LatexMarkdown.Proofs.Tabular
import LatexMarkdown.Proofs.Tabular.Rules
import LatexMarkdown.Proofs.Termination.Loops
import LatexMarkdown.Proofs.Termination
import LatexMarkdown.Proofs.Captions
import LatexMarkdown.Proofs.Levels.Tree
import LatexMarkdown.Proofs.Levels.Inline
import LatexMarkdown.Proofs.Levels.Block
import LatexMarkdown.Proofs.Levels
import LatexMarkdown.Proofs.Depth.Nodes
import LatexMarkdown.Proofs.Depth
import LatexMarkdown.Proofs.Indentation
import LatexMarkdown.Proofs.Tracking
import LatexMarkdown.Proofs.Restarting
import LatexMarkdown.Proofs.Delivery
import LatexMarkdown.Proofs.EndMarkers
import LatexMarkdown.Proofs.Spelling
import LatexMarkdown.Proofs.LineContext
import LatexMarkdown.Proofs.RawEnds
import LatexMarkdown.Proofs.CodeSpans
import LatexMarkdown.Proofs.OptionalArguments
import LatexMarkdown.Proofs.TidyMath
import LatexMarkdown.Proofs.Breaks.Marks
import LatexMarkdown.Proofs.Breaks.Content
import LatexMarkdown.Proofs.Breaks
import LatexMarkdown.Proofs.TableComments.Spaces
import LatexMarkdown.Proofs.TableComments.Content
import LatexMarkdown.Proofs.TableComments.Gaps
import LatexMarkdown.Proofs.TableComments
import LatexMarkdown.Proofs.NormalForm.Pieces
import LatexMarkdown.Proofs.LineBreaks
import LatexMarkdown.Proofs.Walks.Sites
import LatexMarkdown.Proofs.Walks.Sweep
import LatexMarkdown.Proofs.Walks
import LatexMarkdown.Proofs.Innermost
import LatexMarkdown.Proofs.Paths
import LatexMarkdown.Proofs.ReadingAhead
import LatexMarkdown.Proofs.Gathering
import LatexMarkdown.Proofs.RequiredArguments
