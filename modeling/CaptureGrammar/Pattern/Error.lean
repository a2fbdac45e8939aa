import CaptureGrammar.Text.Quoted

/-! Why a text is not a pattern. -/
namespace CaptureGrammar.Pattern

/-- How many groups and repetitions may enclose one another. Every later stage recurses over the
tree, so this bounds their depth as well. -/
def maxNesting : Nat := 256

inductive Error where
  | unclosedGroup
  | unclosedRepetition
  /-- The closing character `c` stands where nothing that it could close is open. -/
  | unmatchedClose (c : Char)
  /-- `text` begins like a reference and goes on without a digit. -/
  | unrecognizedAtom (text : String)
  | emptyExpression
  | tooDeep
deriving DecidableEq, Inhabited

def Error.message : Error → String
  | .unclosedGroup => "Unmatched '(' in pattern"
  | .unclosedRepetition => "Unmatched '<' in pattern"
  | .unmatchedClose c => "Unmatched '" ++ c.toString ++ "' in pattern"
  | .unrecognizedAtom text => "Unrecognized construct " ++ Text.stringLiteral text ++ " in pattern"
  | .emptyExpression => "Empty expression in pattern"
  | .tooDeep => "Groups and repetitions nest deeper than " ++ toString maxNesting ++
      " levels in pattern"

end CaptureGrammar.Pattern
