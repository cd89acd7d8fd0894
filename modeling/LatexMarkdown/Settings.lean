import LatexMarkdown.Number.Shortest
import LatexMarkdown.Text.Quoted
/-!
  Options as a caller gives them, and the settings they resolve to.

  A caller may give any value for an option; `Options.resolve` takes the options one by one and
  refuses the first whose value is of the wrong kind.  An option that is missing or given as
  undefined has its default.
-/
namespace LatexMarkdown

/-- A value of any kind. -/
inductive Value
  | undefined
  | null
  | bool (b : Bool)
  | number (n : Number)
  | text (t : Text)
  | list (items : List Value)
  | object (fields : List (Text × Value))
  deriving Repr, Inhabited

namespace Value

/-- Is a value there? -/
def isDefined : Value → Bool
  | undefined => false
  | _ => true

mutual

/-- A value as plain text. -/
def plain : Value → Text
  | undefined => "undefined"
  | null => "null"
  | bool b => if b then "true" else "false"
  | number n => n.text
  | text t => t
  | list items => plainItems items
  | object _ => "[object Object]"

/-- The items of a list as plain text with commas between them; one that is no value is empty. -/
def plainItems : List Value → Text
  | [] => []
  | [v] => plainItem v
  | v :: rest => plainItem v ++ "," ++ plainItems rest

/-- One item of a list as plain text. -/
def plainItem : Value → Text
  | undefined => []
  | null => []
  | v => plain v

end

/-- A value as messages show it: text in quotes, everything else plain. -/
def shown : Value → Text
  | text t => t.quoted
  | v => v.plain

end Value

/-- The options there are. -/
inductive OptionName
  | mathMode
  | headingLevelOffset
  | preserveComments
  | calloutIcon
  deriving DecidableEq, Repr

namespace OptionName

/-- The key of an option. -/
def key : OptionName → String
  | mathMode => "mathMode"
  | headingLevelOffset => "headingLevelOffset"
  | preserveComments => "preserveComments"
  | calloutIcon => "calloutIcon"

/-- What an option has to be. -/
def expected : OptionName → String
  | mathMode => "'katex'"
  | headingLevelOffset => "an integer"
  | preserveComments => "a boolean"
  | calloutIcon => "a string"

end OptionName

/-- An option with a value that it cannot have. -/
structure ConfigurationError where
  option : OptionName
  value : Value
  deriving Repr

/-- The wording of the error. -/
def ConfigurationError.message (e : ConfigurationError) : Text :=
  "Invalid value for option '" ++ e.option.key ++ "': " ++ e.value.shown ++ " (expected "
    ++ e.option.expected ++ ")"

/-- Options as given; a key may be missing. -/
structure Options where
  mathMode : Option Value := none
  headingLevelOffset : Option Value := none
  preserveComments : Option Value := none
  calloutIcon : Option Value := none
  deriving Repr

/-- The dialect in which mathematics is written. -/
inductive MathMode
  | katex
  deriving DecidableEq, Repr

/-- The name of a dialect. -/
def MathMode.name : MathMode → String
  | katex => "katex"

/-- The settings of a conversion. -/
structure Settings where
  mathMode : MathMode := .katex
  /-- Added to every heading level. -/
  headingLevelOffset : Int := 0
  /-- Comments are kept as text. -/
  keepComments : Bool := false
  /-- Put on the first line of a quote; empty for none. -/
  calloutIcon : Text := "💡"
  deriving DecidableEq, Repr

namespace Options

/-- The keys of `own` before those of `base`, also where `own` has one with no value. -/
def withFallback (own base : Options) : Options where
  mathMode := own.mathMode <|> base.mathMode
  headingLevelOffset := own.headingLevelOffset <|> base.headingLevelOffset
  preserveComments := own.preserveComments <|> base.preserveComments
  calloutIcon := own.calloutIcon <|> base.calloutIcon

/-- Reads the value of one option; without a value it has its default. -/
def read {α : Type} (option : OptionName) (given : Option Value) (default : α)
    (read? : Value → Option α) : Except ConfigurationError α :=
  match given.filter Value.isDefined with
  | none => .ok default
  | some value =>
    match read? value with
    | some a => .ok a
    | none => .error ⟨option, value⟩

/-- The dialect that a value names. -/
def readMathMode? : Value → Option MathMode
  | .text t => if t = "katex" then some .katex else none
  | _ => none

/-- The integer that a value is. -/
def readInt? : Value → Option Int
  | .number n => n.toInt?
  | _ => none

/-- The truth value that a value is. -/
def readBool? : Value → Option Bool
  | .bool b => some b
  | _ => none

/-- The text that a value is. -/
def readText? : Value → Option Text
  | .text t => some t
  | _ => none

/-- The settings that options stand for; of several bad options the first one counts. -/
def resolve (o : Options) : Except ConfigurationError Settings := do
  let defaults : Settings := {}
  let mathMode ← read .mathMode o.mathMode defaults.mathMode readMathMode?
  let headingLevelOffset ←
    read .headingLevelOffset o.headingLevelOffset defaults.headingLevelOffset readInt?
  let keepComments ← read .preserveComments o.preserveComments defaults.keepComments readBool?
  let calloutIcon ← read .calloutIcon o.calloutIcon defaults.calloutIcon readText?
  return { mathMode, headingLevelOffset, keepComments, calloutIcon }

end Options

end LatexMarkdown
