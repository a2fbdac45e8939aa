import CaptureGrammar.Grammar.Nonterminal
import CaptureGrammar.Validation

/-! What a compilation reports of its course. -/
namespace CaptureGrammar

inductive Level where
  | trace
  | debug
  | info
  | warn
deriving DecidableEq

def Level.name : Level → String
  | .trace => "TRACE"
  | .debug => "DEBUG"
  | .info => "INFO"
  | .warn => "WARN"

inductive Event where
  /-- The pattern had a marker, and `output` is the pattern with brackets in place of it. -/
  | rewroteMarker (input output : String)
  /-- Reading passed the parenthesis that opens capturing group `id`. -/
  | openedGroup (id : GroupId)
  /-- Reading ended well, with so many capturing groups and nodes. -/
  | parsed (groups : UInt32) (nodes : Nat)
  | validated (validation : Validation)
  /-- The pattern is not valid, and is compiled all the same. -/
  | acceptedInvalid (failed : List Check)
  /-- A counted nonterminal was given to a node. -/
  | allocated (n : Nonterminal)
  | compiled (rules : Nat)
  /-- The grammar mentions `n` and has no rule for it. -/
  | danglingReference (n : Nonterminal)
deriving DecidableEq

namespace Event

def level : Event → Level
  | .rewroteMarker .. | .parsed .. | .validated _ | .compiled _ => .debug
  | .openedGroup _ | .allocated _ => .trace
  | .acceptedInvalid _ => .info
  | .danglingReference _ => .warn

def message : Event → String
  | .rewroteMarker .. => "rewrote repetition marker"
  | .openedGroup _ => "opened capturing group"
  | .parsed .. => "parsed pattern"
  | .validated _ => "validated pattern"
  | .acceptedInvalid _ => "pattern failed validation, continuing"
  | .allocated _ => "allocated nonterminal"
  | .compiled _ => "compiled grammar"
  | .danglingReference _ => "reference to a group that does not exist"

/-- The details by name, as text. -/
def fields : Event → List (String × String)
  | .rewroteMarker input output => [("input", input), ("output", output)]
  | .openedGroup id => [("id", toString id)]
  | .parsed groups nodes => [("groups", toString groups), ("nodes", toString nodes)]
  | .validated v => [("validation", v.text)]
  | .acceptedInvalid failed => [("failed", Check.names failed)]
  | .allocated n => [("name", n.name)]
  | .compiled rules => [("rules", toString rules)]
  | .danglingReference n => [("name", n.name)]

/-- The event as one line of a log. -/
def line (e : Event) : String :=
  e.level.name ++ " " ++ e.message ++
    String.join (e.fields.map fun (name, value) => " " ++ name ++ "=" ++ value)

end Event

end CaptureGrammar
