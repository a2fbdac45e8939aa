import CaptureGrammar.Pattern.Basic

/-! The nodes of a pattern in the orders in which they are opened and completed. -/
namespace CaptureGrammar.Pattern

mutual

/-- Every part of a pattern, the pattern itself first and each part before its own parts. -/
def nodes : Pattern → List Pattern
  | .concat ps => .concat ps :: nodesOfAll ps
  | .alt ps => .alt ps :: nodesOfAll ps
  | .group id p => .group id p :: nodes p
  | .star p min max => .star p min max :: nodes p
  | .char c => [.char c]
  | .exprRef id => [.exprRef id]
  | .strRef id => [.strRef id]

def nodesOfAll : List Pattern → List Pattern
  | [] => []
  | p :: ps => nodes p ++ nodesOfAll ps

end

mutual

/-- The records of the nodes of a pattern, each after those of its parts. -/
def postorder : Pattern → List Completion
  | .concat ps => postorderOfAll ps ++ [.concat]
  | .alt ps => postorderOfAll ps ++ [.alt]
  | .group id p => postorder p ++ [.group id]
  | .star p _ _ => postorder p ++ [.star]
  | .char c => [.char c]
  | .exprRef id => [.exprRef id]
  | .strRef id => [.strRef id]

def postorderOfAll : List Pattern → List Completion
  | [] => []
  | p :: ps => postorder p ++ postorderOfAll ps

end

mutual

/-- The most groups and repetitions on a way from the root to a leaf. -/
def nesting : Pattern → Nat
  | .concat ps | .alt ps => nestingOfAll ps
  | .group _ p | .star p .. => nesting p + 1
  | .char _ | .exprRef _ | .strRef _ => 0

def nestingOfAll : List Pattern → Nat
  | [] => 0
  | p :: ps => max (nesting p) (nestingOfAll ps)

end

end CaptureGrammar.Pattern
