import CaptureGrammar.Pattern.Parsed

/-! Two checks on what reading a pattern recorded. To fail one is a verdict, not an error. -/
namespace CaptureGrammar

open Pattern (Parsed)

/-- A reference is one digit, so no later group can be referred to. -/
def maxGroups : UInt32 := 9

/-- The properties that a valid pattern has. -/
inductive Check where
  | groupCount
  | referenceOrder
deriving DecidableEq

def Check.name : Check → String
  | .groupCount => "group count"
  | .referenceOrder => "reference order"

/-- The names of checks in a row. -/
def Check.names (checks : List Check) : String := ", ".intercalate (checks.map Check.name)

/-- The outcome of each check. -/
structure Validation where
  groupCount : Bool
  referenceOrder : Bool
deriving DecidableEq

/-- Whether no group is completed after a reference to its text. The groups in `seen` have been
referred to before. A reference inside its own group is complete before the group is. -/
def inReferenceOrder (seen : List GroupId) : List Completion → Bool
  | [] => true
  | .strRef id :: cs => inReferenceOrder (id :: seen) cs
  | .group (some id) :: cs => !seen.contains id && inReferenceOrder seen cs
  | _ :: cs => inReferenceOrder seen cs

namespace Validation

def of (nextGroupId : GroupId) (completions : List Completion) : Validation where
  groupCount := nextGroupId ≤ maxGroups + 1
  referenceOrder := inReferenceOrder [] completions

def ofParsed (r : Parsed) : Validation := of r.nextGroupId r.completions

def isValid (v : Validation) : Bool := v.groupCount && v.referenceOrder

/-- The checks that failed, the group count first. -/
def failed (v : Validation) : List Check :=
  (if v.groupCount then [] else [.groupCount]) ++
    if v.referenceOrder then [] else [.referenceOrder]

/-- The outcome of both checks on one line. -/
def text (v : Validation) : String :=
  "Validation \x7b group_count: " ++ toString v.groupCount ++ ", reference_order: " ++
    toString v.referenceOrder ++ " \x7d"

end Validation

end CaptureGrammar
