import CaptureGrammar.Pattern.Nodes

/-! The words that a pattern matches when a reference to text repeats what its group captured. -/
namespace CaptureGrammar.Pattern

/-- The word that each group has captured last, of the groups that have captured any. -/
abbrev Memory := GroupId → Option (List Char)

def Memory.empty : Memory := fun _ => none

def Memory.record (m : Memory) (id : GroupId) (w : List Char) : Memory :=
  fun i => if i = id then some w else m i

/-- `MatchesFrom root p m w m'` says that `p`, as a part of `root`, matches the word `w` after the
groups have captured `m`, and leaves them with `m'`. A group captures once its body has matched, and
again whenever it is come to again. The expression of a group may be that of any group of its number
in `root`. Repetition bounds play no part. -/
inductive MatchesFrom (root : Pattern) : Pattern → Memory → List Char → Memory → Prop
  | char (c m) : MatchesFrom root (.char c) m [c] m
  | concatNil (m) : MatchesFrom root (.concat []) m [] m
  | concatCons {p ps m m₁ m₂ v w} : MatchesFrom root p m v m₁ →
      MatchesFrom root (.concat ps) m₁ w m₂ → MatchesFrom root (.concat (p :: ps)) m (v ++ w) m₂
  | alt {p ps m m' w} : p ∈ ps → MatchesFrom root p m w m' → MatchesFrom root (.alt ps) m w m'
  | group {p m m' w} : MatchesFrom root p m w m' → MatchesFrom root (.group none p) m w m'
  | capture {id p m m' w} : MatchesFrom root p m w m' →
      MatchesFrom root (.group (some id) p) m w (m'.record id w)
  | starNil {p min max} (m) : MatchesFrom root (.star p min max) m [] m
  | starCons {p min max m m₁ m₂ v w} : MatchesFrom root p m v m₁ →
      MatchesFrom root (.star p min max) m₁ w m₂ →
      MatchesFrom root (.star p min max) m (v ++ w) m₂
  | exprRef {id q m m' w} : .group (some id) q ∈ root.nodes → MatchesFrom root q m w m' →
      MatchesFrom root (.exprRef id) m w m'
  | strRef {id m w} : m id = some w → MatchesFrom root (.strRef id) m w m

end CaptureGrammar.Pattern
