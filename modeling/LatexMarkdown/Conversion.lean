import LatexMarkdown.Markdown
import LatexMarkdown.Parse
/-!
  From source to Markdown.

  A conversion resolves the options first, then reads the source, then writes the document; the
  first of these that fails is what it fails with.  Writing fails where there is no room.
-/
namespace LatexMarkdown

/-- What a conversion fails with. -/
inductive ConversionError
  | configuration (e : ConfigurationError)
  | structural (e : StructuralError)
  | size (e : Markdown.SizeError)

/-- The wording of the error. -/
def ConversionError.message : ConversionError → Text
  | configuration e => e.message
  | structural e => e.message
  | size e => e.message

/-- Markdown and the diagnostics about its source. -/
structure Conversion where
  output : Text
  diagnostics : List Diagnostic
  deriving DecidableEq

/-- Resolves options and goes on with the settings. -/
def withSettings {α : Type} (options : Options) (f : Settings → Except ConversionError α) :
    Except ConversionError α :=
  match options.resolve with
  | .error e => .error (.configuration e)
  | .ok settings => f settings

/-- Reads a source under options. -/
def parseDocument (source : Text) (options : Options := {}) : Except ConversionError Parsed :=
  withSettings options fun settings => (Document.parse settings source).mapError .structural

/-- Writes a document under options. -/
def renderDocument {P : Type} (document : Document P) (options : Options := {}) :
    Except ConversionError Text :=
  withSettings options fun settings => (Markdown.write settings document).mapError .size

/-- Converts a source under settings. -/
def convertUnder (settings : Settings) (source : Text) : Except ConversionError Conversion := do
  let parsed ← (Document.parse settings source).mapError .structural
  let output ← (Markdown.write settings parsed.document).mapError .size
  return { output, diagnostics := parsed.diagnostics }

/-- Converts a source to Markdown and reports on it. -/
def convertWithDiagnostics (source : Text) (options : Options := {}) :
    Except ConversionError Conversion :=
  withSettings options fun settings => convertUnder settings source

/-- Converts a source to Markdown. -/
def convert (source : Text) (options : Options := {}) : Except ConversionError Text :=
  (convertWithDiagnostics source options).map (·.output)

/-- A converter with options of its own, which those of a call go before. -/
structure Converter where
  options : Options := {}

/-- Reads a source under the options of the call and the converter's own. -/
def Converter.parseDocument (c : Converter) (source : Text) (options : Options := {}) :
    Except ConversionError Parsed :=
  LatexMarkdown.parseDocument source (options.withFallback c.options)

end LatexMarkdown
