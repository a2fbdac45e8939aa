import CaptureGrammar.Annotated.Drawing
import CaptureGrammar.Annotated.Json
import CaptureGrammar.CommandLine.Options
import CaptureGrammar.Compilation
import CaptureGrammar.Pattern.Outline

/-! The texts that the program prints. -/
namespace CaptureGrammar.CommandLine

def versionText : String := "patgram 0.1.0\n"

def usageText : String :=
  "Usage: patgram [OPTIONS] [PATTERN]\n\n" ++
  "Arguments:\n" ++
  "  [PATTERN]  Pattern to compile (read from stdin if omitted)\n\n" ++
  "Options:\n" ++
  "  -f, --format <FORMAT>  Output format for the attribute grammar: text (default) or json\n" ++
  "  -s, --strict           Do not build a grammar for patterns that fail validation\n" ++
  "  -q, --quiet-ast        Do not print the syntax tree\n" ++
  "  -v, --verbose...       Increase log verbosity (-v debug, -vv trace)\n" ++
  "  -h, --help             Print help\n" ++
  "  -V, --version          Print version\n"

def UsageError.message : UsageError → String
  | .unknownOption text => "unknown option " ++ text
  | .unexpectedArgument text => "unexpected argument " ++ text
  | .unexpectedValue name => "--" ++ name ++ " takes no value"
  | .missingValue name => "--" ++ name ++ " needs a value"
  | .invalidFormat value => "invalid format " ++ value
  | .repeated name => "--" ++ name ++ " is given more than once"

/-- The report of a failure, with its cause set off where it has one. -/
def errorText (headline : String) (cause : Option String) : String :=
  "Error: " ++ headline ++ "\n" ++ cause.elim "" ("\nCaused by:\n    " ++ · ++ "\n")

def annotatedText (a : Annotated) : Format → String
  | .text => a.drawing
  | .json => a.toJson.pretty ++ "\n"

/-- The verdict, the source and, unless `quiet`, its tree, then the grammar and the annotated
pattern. -/
def compilationText (c : Compilation) (format : Format) (quiet : Bool) : String :=
  (if c.validation.isValid then "correct expression\n" else "incorrect expression\n") ++
  c.source ++ "\n" ++ (if quiet then "" else c.parsed.root.outline) ++
  "\nContext-free grammar:\n\n" ++ c.grammar.text ++
  "\nAttribute grammar:\n" ++ annotatedText c.annotated format

end CaptureGrammar.CommandLine
