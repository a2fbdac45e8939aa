import CaptureGrammar.Annotated.Basic
import CaptureGrammar.Event
import CaptureGrammar.Grammar.OfPattern
import CaptureGrammar.Pattern.Marker

/-! A pattern taken through every stage: marker, reading, validation, grammar and annotation. -/
namespace CaptureGrammar

open Pattern (Parsed)

/-- What becomes of a pattern that is not valid. -/
inductive Policy where
  /-- The verdict is reported, and the pattern is compiled. -/
  | advisory
  /-- The pattern is refused before it is compiled. -/
  | strict
deriving DecidableEq

instance : Inhabited Policy := ⟨.advisory⟩

inductive Failure where
  | unreadable (source : String) (cause : Pattern.Error)
  | invalid (source : String) (failed : List Check)
deriving DecidableEq

namespace Failure

/-- The failure in one sentence, without its cause. -/
def headline : Failure → String
  | .unreadable source _ => "Failed to parse " ++ Text.stringLiteral source
  | .invalid source failed =>
    "Invalid pattern " ++ Text.stringLiteral source ++ ": failed " ++ Check.names failed ++ "."

def cause? : Failure → Option String
  | .unreadable _ e => some e.message
  | .invalid .. => none

/-- The headline and the cause on one line. -/
def message (f : Failure) : String :=
  f.headline ++ f.cause?.elim "" (": " ++ ·)

end Failure

/-- All that is known of a pattern in the end. -/
structure Compilation where
  source : String
  /-- The source with brackets in place of its first marker. -/
  normalized : String
  parsed : Parsed
  validation : Validation
  grammar : Grammar Nonterminal
  annotated : Annotated

namespace Compilation

/-- The events up to the end of reading. -/
def readingEvents (source : String) : List Event :=
  let normalized := Pattern.normalize source
  (if Pattern.hasMarker source then [.rewroteMarker source normalized] else []) ++
    (Pattern.openedGroups normalized).map .openedGroup

/-- The events of building the grammar of `p`. -/
def grammarEvents (p : Pattern) : List Event :=
  let built := Builder.ofPattern p
  built.allocated.reverse.map .allocated ++ [.compiled built.rules.length] ++
    (Grammar.ofPattern p).undefined.map .danglingReference

end Compilation

/-- Compiles `source`, and reports the events on the way there in their order. -/
def compile (source : String) (policy : Policy) : Except Failure Compilation × List Event :=
  let normalized := Pattern.normalize source
  let reading := Compilation.readingEvents source
  match Pattern.parse normalized with
  | .error e => (.error (.unreadable source e), reading)
  | .ok parsed =>
    let validation := Validation.ofParsed parsed
    let checked := reading ++
      [.parsed parsed.groupCount parsed.completions.length, .validated validation]
    if !validation.isValid && policy == .strict then
      (.error (.invalid source validation.failed), checked)
    else
      let accepted := if validation.isValid then [] else [.acceptedInvalid validation.failed]
      (.ok { source, normalized, parsed, validation
             grammar := Grammar.ofPattern parsed.root
             annotated := Annotated.ofPattern parsed.root },
        checked ++ accepted ++ Compilation.grammarEvents parsed.root)

end CaptureGrammar
