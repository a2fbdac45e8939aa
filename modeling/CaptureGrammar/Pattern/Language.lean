import CaptureGrammar.Pattern.Nodes

/-! The words that a pattern matches when references may stand for any match of their group. -/
namespace CaptureGrammar.Pattern

/-- `Matches root p w` says that `p`, as a part of `root`, matches the word `w`. What carries the
number of a capturing group matches what the body of any capturing group of that number in `root`
does. Repetition bounds play no part. -/
inductive Matches (root : Pattern) : Pattern → List Char → Prop
  | char (c) : Matches root (.char c) [c]
  | concatNil : Matches root (.concat []) []
  | concatCons {p ps v w} : Matches root p v → Matches root (.concat ps) w →
      Matches root (.concat (p :: ps)) (v ++ w)
  | alt {p ps w} : p ∈ ps → Matches root p w → Matches root (.alt ps) w
  | group {p w} : Matches root p w → Matches root (.group none p) w
  | capture {id p q w} : .group (some id) q ∈ root.nodes → Matches root q w →
      Matches root (.group (some id) p) w
  | starNil {p min max} : Matches root (.star p min max) []
  | starCons {p min max v w} : Matches root p v → Matches root (.star p min max) w →
      Matches root (.star p min max) (v ++ w)
  | exprRef {id q w} : .group (some id) q ∈ root.nodes → Matches root q w →
      Matches root (.exprRef id) w
  | strRef {id q w} : .group (some id) q ∈ root.nodes → Matches root q w →
      Matches root (.strRef id) w

end CaptureGrammar.Pattern
