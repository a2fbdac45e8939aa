import CaptureGrammar.Pattern.Basic
import CaptureGrammar.Text.Quoted

/-! The indented form of a pattern, a bracket or leaf to a line. Repetition bounds are not shown. -/
namespace CaptureGrammar.Pattern

/-- A line at nesting depth `depth`, four spaces to a level. -/
def outlineLine (depth : Nat) (text : String) : String :=
  String.ofList (List.replicate (4 * depth) ' ') ++ text ++ "\n"

/-- A name on its own line, and below it the lines of the parts between brackets. -/
def outlineBlock (depth : Nat) (name opening parts : String) : String :=
  outlineLine depth name ++ outlineLine depth opening ++ parts ++ outlineLine depth ")"

mutual

/-- The lines of a pattern that stands at nesting depth `depth`. -/
def outlineAt (depth : Nat) : Pattern → String
  | .char c => outlineLine depth ("Char(" ++ Text.charLiteral c ++ ")")
  | .concat ps => outlineBlock depth "Concat" "(" (outlinesAt (depth + 1) ps)
  | .alt ps => outlineBlock depth "Alt" "(" (outlinesAt (depth + 1) ps)
  | .group (some id) p =>
    outlineBlock depth "Group" ("(" ++ toString id ++ ",") (outlineAt (depth + 1) p)
  | .group none p => outlineBlock depth "Group" "(?:," (outlineAt (depth + 1) p)
  | .star p _ _ => outlineBlock depth "Star" "(" (outlineAt (depth + 1) p)
  | .exprRef id => outlineLine depth ("ExprRef(" ++ toString id ++ ")")
  | .strRef id => outlineLine depth ("StrRef(" ++ toString id ++ ")")

def outlinesAt (depth : Nat) : List Pattern → String
  | [] => ""
  | p :: ps => outlineAt depth p ++ outlinesAt depth ps

end

def outline (p : Pattern) : String := outlineAt 0 p

end CaptureGrammar.Pattern
