import CaptureGrammar.Pattern.Reader.Expression

/-! What reading a pattern yields: the tree, the order in which its nodes were completed, and the
numbering of its groups. -/
namespace CaptureGrammar.Pattern

structure Parsed where
  root : Pattern
  /-- The record of each node, in the order in which their texts ended. -/
  completions : List Completion
  /-- One more than the highest number given to a capturing group. -/
  nextGroupId : GroupId
deriving DecidableEq

/-- How many capturing groups were opened. -/
def Parsed.groupCount (r : Parsed) : UInt32 := r.nextGroupId - 1

/-- Reads `s` as a pattern. Markers are literal characters here. -/
def parse (s : String) : Except Error Parsed :=
  match readAll s.toList with
  | .ok root t => .ok ⟨root, t.finished.reverse, t.nextId⟩
  | .error e _ => .error e

/-- The capturing groups that reading `s` opens, in order, up to the failure if it fails. -/
def openedGroups (s : String) : List GroupId :=
  match readAll s.toList with
  | .ok _ t | .error _ t => t.opened.reverse

end CaptureGrammar.Pattern
