import CaptureGrammar.Pattern.Basic

/-! Patterns annotated with the length of what they match, where the tree alone fixes it. -/
namespace CaptureGrammar

/-- A pattern whose characters, concatenations and groups carry a length. An `Option` length is
missing where the length is not fixed. -/
inductive Annotated where
  | char (value : Char) (length : Nat)
  | concat (parts : List Annotated) (length : Option Nat)
  | alt (branches : List Annotated)
  | group (id : Option GroupId) (body : Annotated) (length : Option Nat)
  | star (body : Annotated) (min : UInt32) (max : Option UInt32)
  | exprRef (id : GroupId)
  | strRef (id : GroupId)
deriving Inhabited

namespace Annotated

/-- The length that the root carries. -/
def length? : Annotated → Option Nat
  | .char _ n => some n
  | .concat _ n | .group _ _ n => n
  | .alt _ | .star .. | .exprRef _ | .strRef _ => none

/-- The trees directly below the root. -/
def children : Annotated → List Annotated
  | .concat ps _ | .alt ps => ps
  | .group _ p _ | .star p .. => [p]
  | .char .. | .exprRef _ | .strRef _ => []

/-- The sum of the lengths, if all are there. -/
def totalLength? : List Annotated → Option Nat
  | [] => some 0
  | a :: as => return (← a.length?) + (← totalLength? as)

mutual

/-- Annotates a pattern from the leaves up. -/
def ofPattern : Pattern → Annotated
  | .char c => .char c 1
  | .concat ps =>
    let parts := ofPatterns ps
    .concat parts (totalLength? parts)
  | .alt ps => .alt (ofPatterns ps)
  | .group id p =>
    let body := ofPattern p
    .group id body body.length?
  | .star p min max => .star (ofPattern p) min max
  | .exprRef id => .exprRef id
  | .strRef id => .strRef id

def ofPatterns : List Pattern → List Annotated
  | [] => []
  | p :: ps => ofPattern p :: ofPatterns ps

end

end Annotated

end CaptureGrammar
