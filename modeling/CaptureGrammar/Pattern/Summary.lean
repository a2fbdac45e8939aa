import CaptureGrammar.Pattern.Basic
import CaptureGrammar.Text.Quoted

/-! The canonical one-line form of a pattern, and the text of a completion. -/
namespace CaptureGrammar

/-- An upper bound on repetitions; `∞` stands for none. -/
def boundText : Option UInt32 → String
  | some n => toString n
  | none => "∞"

namespace Pattern

mutual

/-- The pattern as nested terms, such as `Concat(Char('a'), Group(1, Char('b')))`. -/
def summary : Pattern → String
  | .char c => "Char(" ++ Text.charLiteral c ++ ")"
  | .concat ps => "Concat(" ++ ", ".intercalate (summaries ps) ++ ")"
  | .alt ps => "Alt(" ++ ", ".intercalate (summaries ps) ++ ")"
  | .group (some id) p => "Group(" ++ toString id ++ ", " ++ summary p ++ ")"
  | .group none p => "Group(?:, " ++ summary p ++ ")"
  | .star p min max =>
    "Star(" ++ summary p ++ ", min=" ++ toString min ++ ", max=" ++ boundText max ++ ")"
  | .exprRef id => "ExprRef(" ++ toString id ++ ")"
  | .strRef id => "StrRef(" ++ toString id ++ ")"

def summaries : List Pattern → List String
  | [] => []
  | p :: ps => summary p :: summaries ps

end

end Pattern

def Completion.text : Completion → String
  | .char c => "Char(" ++ Text.charLiteral c ++ ")"
  | .concat => "Concat"
  | .alt => "Alt"
  | .group (some id) => "Group(Some(" ++ toString id ++ "))"
  | .group none => "Group(None)"
  | .star => "Star"
  | .exprRef id => "ExprRef(" ++ toString id ++ ")"
  | .strRef id => "StrRef(" ++ toString id ++ ")"

end CaptureGrammar
