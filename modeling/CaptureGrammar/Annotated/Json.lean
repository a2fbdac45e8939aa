import CaptureGrammar.Annotated.Basic
import CaptureGrammar.Json

/-! Annotated patterns as JSON objects with a `type` for the kind of node. -/
namespace CaptureGrammar.Annotated

/-- The group id that stands for a group that does not capture. -/
def noncapturing : Int := -1

/-- A field that is left out where there is no value. -/
def optionalField (key : String) (n : Option Nat) : List (String × Json) :=
  (n.map fun n => (key, Json.number n)).toList

mutual

def toJson : Annotated → Json
  | .char c n =>
    .object [("type", .text "Char"), ("value", .text c.toString), ("length", .number n)]
  | .concat ps n =>
    .object ([("type", .text "Concat"), ("children", .array (toJsons ps))] ++
      optionalField "length" n)
  | .alt ps => .object [("type", .text "Alt"), ("children", .array (toJsons ps))]
  | .group id p n =>
    .object ([("type", .text "Group"),
      ("groupId", .number (id.elim noncapturing fun id => id.toNat)), ("child", toJson p)] ++
      optionalField "length" n)
  | .star p min max =>
    .object ([("type", .text "Star"), ("child", toJson p), ("minRepeats", .number min.toNat)] ++
      optionalField "maxRepeats" (max.map UInt32.toNat))
  | .exprRef id => .object [("type", .text "ExprRef"), ("refId", .number id.toNat)]
  | .strRef id => .object [("type", .text "StrRef"), ("refId", .number id.toNat)]

def toJsons : List Annotated → List Json
  | [] => []
  | a :: as => toJson a :: toJsons as

end

end CaptureGrammar.Annotated
