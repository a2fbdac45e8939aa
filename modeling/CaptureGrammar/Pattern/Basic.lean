/-! Patterns as trees, and the record that each node leaves when its text has been read. -/
namespace CaptureGrammar

/-- The number of a capturing group. A reader numbers groups from 1 as they open. -/
abbrev GroupId := UInt32

/-- A pattern over characters, with capturing groups and references to them. Reading text never
yields a `concat` or an `alt` of fewer than two parts, but any tree is a pattern. -/
inductive Pattern where
  | char (c : Char)
  | concat (parts : List Pattern)
  | alt (branches : List Pattern)
  /-- A capturing group, or with no `id` a group that only brackets its body. -/
  | group (id : Option GroupId) (body : Pattern)
  /-- A repetition. Without a `max` it has no upper bound. -/
  | star (body : Pattern) (min : UInt32) (max : Option UInt32)
  /-- The expression of group `id`, matched anew. -/
  | exprRef (id : GroupId)
  /-- The text that group `id` has matched. -/
  | strRef (id : GroupId)
deriving Inhabited

namespace Pattern

/-- The one repetition that pattern text can express: zero or more times. -/
def many (body : Pattern) : Pattern := .star body 0 none

mutual

/-- Whether two trees agree node by node. -/
def same : Pattern → Pattern → Bool
  | .char c, .char d => c == d
  | .concat ps, .concat qs => sameAll ps qs
  | .alt ps, .alt qs => sameAll ps qs
  | .group i p, .group j q => i == j && same p q
  | .star p m n, .star q k l => same p q && m == k && n == l
  | .exprRef i, .exprRef j => i == j
  | .strRef i, .strRef j => i == j
  | _, _ => false

/-- Whether two lists of trees agree tree by tree. -/
def sameAll : List Pattern → List Pattern → Bool
  | [], [] => true
  | p :: ps, q :: qs => same p q && sameAll ps qs
  | _, _ => false

end

mutual

theorem same_iff : (p q : Pattern) → (same p q = true ↔ p = q)
  | .char _, q => by cases q <;> simp [same]
  | .concat ps, q => by cases q <;> simp [same, sameAll_iff ps]
  | .alt ps, q => by cases q <;> simp [same, sameAll_iff ps]
  | .group _ p, q => by cases q <;> simp [same, same_iff p]
  | .star p _ _, q => by cases q <;> simp [same, same_iff p, and_assoc]
  | .exprRef _, q => by cases q <;> simp [same]
  | .strRef _, q => by cases q <;> simp [same]

theorem sameAll_iff : (ps qs : List Pattern) → (sameAll ps qs = true ↔ ps = qs)
  | [], qs => by cases qs <;> simp [sameAll]
  | p :: ps, qs => by cases qs <;> simp [sameAll, same_iff p, sameAll_iff ps]

end

instance : DecidableEq Pattern := fun p q => decidable_of_iff _ (same_iff p q)

end Pattern

/-- What is recorded of a node when its text is complete: its kind and the number it carries. -/
inductive Completion where
  | char (c : Char)
  | concat
  | alt
  | group (id : Option GroupId)
  | star
  | exprRef (id : GroupId)
  | strRef (id : GroupId)
deriving DecidableEq, Inhabited

/-- The record of a pattern's own node. -/
def Pattern.completion : Pattern → Completion
  | .char c => .char c
  | .concat _ => .concat
  | .alt _ => .alt
  | .group id _ => .group id
  | .star .. => .star
  | .exprRef id => .exprRef id
  | .strRef id => .strRef id

end CaptureGrammar
