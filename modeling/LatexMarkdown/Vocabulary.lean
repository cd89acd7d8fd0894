import LatexMarkdown.Text
/-!
  The commands and environments that have a meaning.

  Names are looked up in plain tables.  A name in none of them is unknown: its command stays
  literal, its environment is read as if the markers were not there.
-/
namespace LatexMarkdown

/-- A table keyed by names. -/
def nameTable {β : Type} (entries : List (String × β)) : List (Text × β) :=
  entries.map fun (name, value) => (Text.ofString name, value)

/-! ## Environments -/

/-- How the body of an environment is read. -/
inductive EnvironmentKind
  /-- Blocks that stand in place. -/
  | transparent
  | unorderedList
  | orderedList
  | table
  /-- A float around a table. -/
  | tableFloat
  | codeBlock
  /-- Dropped. -/
  | comment
  | quote
  | mathBlock
  /-- Mathematics of several lines, wrapped again when it is written. -/
  | alignedMath
  deriving DecidableEq, Repr

namespace EnvironmentKind

/-- The name a kind is shown by. -/
def name : EnvironmentKind → String
  | transparent => "Transparent"
  | unorderedList => "UnorderedList"
  | orderedList => "OrderedList"
  | table => "Table"
  | tableFloat => "TableFloat"
  | codeBlock => "CodeBlock"
  | comment => "Comment"
  | quote => "Blockquote"
  | mathBlock => "MathBlock"
  | alignedMath => "AlignedMath"

/-- Every known environment. -/
def environments : List (Text × EnvironmentKind) := nameTable
    [("itemize", .unorderedList), ("description", .unorderedList), ("enumerate", .orderedList),
     ("tabular", .table), ("tabular*", .table), ("tabularx", .table), ("longtable", .table),
     ("array", .table), ("table", .tableFloat), ("table*", .tableFloat),
     ("verbatim", .codeBlock), ("verbatim*", .codeBlock), ("lstlisting", .codeBlock),
     ("minted", .codeBlock), ("comment", .comment),
     ("quote", .quote), ("quotation", .quote),
     ("equation", .mathBlock), ("equation*", .mathBlock), ("displaymath", .mathBlock),
     ("math", .mathBlock),
     ("align", .alignedMath), ("align*", .alignedMath), ("gather", .alignedMath),
     ("gather*", .alignedMath), ("multline", .alignedMath), ("multline*", .alignedMath),
     ("eqnarray", .alignedMath), ("eqnarray*", .alignedMath),
     ("document", .transparent), ("center", .transparent), ("flushleft", .transparent),
     ("flushright", .transparent), ("minipage", .transparent), ("figure", .transparent),
     ("figure*", .transparent), ("abstract", .transparent)]

/-- The kind of a known environment. -/
def ofName? (name : Text) : Option EnvironmentKind := environments.lookup name

end EnvironmentKind

/-- How many arguments in braces an environment takes right after its begin marker. -/
def environmentArgumentCount (name : Text) : Nat :=
  if name = "tabular" ∨ name = "longtable" ∨ name = "array" ∨ name = "minipage" then 1
  else if name = "tabular*" ∨ name = "tabularx" then 2
  else 0

/-- The environment that mathematics of several lines is wrapped in when it is written. -/
def alignedWrapper (environment : Text) : Text :=
  let base := if environment.getLast? = some 0x2A then environment.dropLast else environment
  if base = "gather" then "gathered" else "aligned"

/-! ## Commands -/

/-- Sectioning commands and their levels. -/
def headingCommands : List (Text × Nat) := nameTable
    [("section", 1), ("section*", 1), ("subsection", 2), ("subsection*", 2),
     ("subsubsection", 3), ("subsubsection*", 3)]

/-- The level of a sectioning command. -/
def headingLevel? (command : Text) : Option Nat := headingCommands.lookup command

/-- Preamble and layout commands, dropped with so many arguments in braces. -/
def droppedCommands : List (Text × Nat) := nameTable
    [("documentclass", 1), ("usepackage", 1), ("maketitle", 0), ("noindent", 0), ("centering", 0),
     ("raggedright", 0), ("newpage", 0), ("clearpage", 0), ("tableofcontents", 0), ("smallskip", 0),
     ("medskip", 0), ("bigskip", 0), ("vspace", 1), ("vspace*", 1), ("hspace", 1), ("hspace*", 1),
     ("label", 1)]

/-- How many arguments are dropped with a preamble or layout command. -/
def droppedArgumentCount? (command : Text) : Option Nat := droppedCommands.lookup command

/-- Commands dropped between table rows and in table floats, with so many arguments in braces. -/
def tableRules : List (Text × Nat) := nameTable
    [("hline", 0), ("toprule", 0), ("midrule", 0), ("bottomrule", 0), ("centering", 0),
     ("cline", 1), ("caption", 1), ("label", 1)]

/-- How many arguments are dropped with a table rule. -/
def tableRuleArgumentCount? (command : Text) : Option Nat := tableRules.lookup command

/-- What a formatting command of one argument makes of it. -/
inductive InlineStyle
  | strong
  | emphasis
  | code
  /-- The content stays, the formatting is dropped. -/
  | plain
  deriving DecidableEq, Repr

namespace InlineStyle

/-- The name a style is shown by. -/
def name : InlineStyle → String
  | strong => "Strong"
  | emphasis => "Emphasis"
  | code => "Code"
  | plain => "Plain"

/-- Every formatting command. -/
def commands : List (Text × InlineStyle) := nameTable
    [("textbf", .strong), ("textit", .emphasis), ("emph", .emphasis), ("texttt", .code),
     ("textrm", .plain), ("textsf", .plain), ("textup", .plain), ("textnormal", .plain),
     ("underline", .plain), ("mbox", .plain)]

/-- The style of a formatting command. -/
def ofCommand? (command : Text) : Option InlineStyle := commands.lookup command

end InlineStyle

/-! ## Bounds -/

theorem headingLevel?_mem_range {command : Text} {level : Nat}
    (h : headingLevel? command = some level) : 1 ≤ level ∧ level ≤ 3 := by
  have key : ∀ entry ∈ headingCommands, 1 ≤ entry.2 ∧ entry.2 ≤ 3 := by decide
  have : ∀ (l : List (Text × Nat)), l.lookup command = some level → (command, level) ∈ l := by
    intro l
    induction l with
    | nil => simp
    | cons e rest ih =>
      obtain ⟨name, n⟩ := e
      simp only [List.lookup_cons]
      split
      · next heq =>
        intro hn
        simp_all
      · intro hn
        exact List.mem_cons_of_mem _ (ih hn)
  exact key _ (this _ h)

end LatexMarkdown
