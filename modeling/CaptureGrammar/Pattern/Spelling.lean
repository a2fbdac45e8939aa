import CaptureGrammar.Pattern.Basic

/-! Patterns written as the text from which they are read. Repetition bounds and the numbers of
capturing groups have no place in it. -/
namespace CaptureGrammar.Pattern

mutual

def spelling : Pattern → List Char
  | .char c => [c]
  | .concat ps => spellingOfAll ps
  | .alt ps => spellingOfBranches ps
  | .group (some _) p => '(' :: spelling p ++ [')']
  | .group none p => '(' :: '?' :: ':' :: spelling p ++ [')']
  | .star p _ _ => '<' :: spelling p ++ ['>']
  | .exprRef id => '(' :: '?' :: (toString id).toList ++ [')']
  | .strRef id => '(' :: '\\' :: (toString id).toList ++ [')']

def spellingOfAll : List Pattern → List Char
  | [] => []
  | p :: ps => spelling p ++ spellingOfAll ps

/-- Branches with bars between them. -/
def spellingOfBranches : List Pattern → List Char
  | [] => []
  | [p] => spelling p
  | p :: q :: ps => spelling p ++ '|' :: spellingOfBranches (q :: ps)

end

/-- The characters that cannot stand for themselves. -/
def delimiters : List Char := ['(', ')', '<', '>', '|']

mutual

/-- The trees that text spells: sequences and alternatives have two parts or more and are not nested
where brackets would be needed to tell, and nothing needs a character or number that no text has. -/
def IsCanonical : Pattern → Prop
  | .char c => c ∉ delimiters
  | .concat ps => 2 ≤ ps.length ∧ AllCanonical ps ∧
      ∀ p ∈ ps, ∀ qs, p ≠ .concat qs ∧ p ≠ .alt qs
  | .alt ps => 2 ≤ ps.length ∧ AllCanonical ps ∧ ∀ p ∈ ps, ∀ qs, p ≠ .alt qs
  | .group id p => IsCanonical p ∧
      (id.isSome → ∀ c ∈ (spelling p).head?, c ≠ '?' ∧ c ≠ '\\')
  | .star p min max => IsCanonical p ∧ min = 0 ∧ max = none
  | .exprRef id | .strRef id => id ≤ 9

def AllCanonical : List Pattern → Prop
  | [] => True
  | p :: ps => IsCanonical p ∧ AllCanonical ps

end

end CaptureGrammar.Pattern
