import CaptureGrammar.CommandLine.Report

/-! The program as a function from arguments and standard input to what it prints and its exit
code. -/
namespace CaptureGrammar.CommandLine

/-- The end of a run. -/
structure Outcome where
  code : UInt8
  stdout : String := ""
  stderr : String := ""
  /-- The lines of the log, which goes to standard error as well. -/
  log : List String := []

/-- `s` without the carriage returns and line feeds at its end. -/
def trimLineEnd (s : String) : String :=
  String.ofList (s.toList.reverse.dropWhile fun c => c == '\r' || c == '\n').reverse

namespace Options

/-- The pattern from the arguments, or else from standard input, which has to be text. -/
def source? (o : Options) (stdin : ByteArray) : Option String :=
  match o.pattern with
  | some s => some s
  | none => (String.fromUTF8? stdin).map trimLineEnd

def policy (o : Options) : Policy := if o.strict then .strict else .advisory

/-- Whether an event is logged. Without a request for a log none is, and the finest are logged only
on a second request. -/
def logs (o : Options) (e : Event) : Bool :=
  2 ≤ o.verbosity || (o.verbosity == 1 && e.level != .trace)

/-- Compiles `source` as the options ask. -/
def outcome (o : Options) (source : String) : Outcome :=
  let (result, events) := compile source o.policy
  let log := (events.filter o.logs).map Event.line
  match result with
  | .error e => { code := 1, stderr := errorText e.headline e.cause?, log }
  | .ok c => { code := 0, stdout := compilationText c (o.format.getD .text) o.quiet, log }

end Options

/-- Whether a run with these arguments reads standard input. -/
def readsInput (args : List String) : Bool :=
  match Request.ofArguments args with
  | .ok (.run o) => o.pattern.isNone
  | _ => false

/-- The outcome of a run. -/
def run (args : List String) (stdin : ByteArray) : Outcome :=
  match Request.ofArguments args with
  | .error e => { code := 2, stderr := "error: " ++ e.message ++ "\n\n" ++ usageText }
  | .ok .help => { code := 0, stdout := usageText }
  | .ok .version => { code := 0, stdout := versionText }
  | .ok (.run o) =>
    match o.source? stdin with
    | none =>
      { code := 1
        stderr := errorText "Failed to read stdin" (some "stream did not contain valid UTF-8") }
    | some source => o.outcome source

end CaptureGrammar.CommandLine
