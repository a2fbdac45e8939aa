import CaptureGrammar.Annotated.Basic
import CaptureGrammar.Proofs.Address
import CaptureGrammar.Proofs.NodeCounts

/-!
Annotating changes nothing but to add lengths, and which lengths it adds.

A node gets a length just when nothing in it can match texts of different lengths or refers to a
group, and the length counts the characters in it.
-/
namespace CaptureGrammar

namespace Pattern

variable {p q : Pattern} {ps : List Pattern}

/-- Whether a node is of a kind that fixes no length. -/
def isVariable : Pattern → Bool
  | .alt _ | .star .. | .exprRef _ | .strRef _ => true
  | .char _ | .concat _ | .group .. => false

/-- The number of characters among nodes, if all of them are of kinds that fix a length. -/
def charCount? (ps : List Pattern) : Option Nat :=
  if ps.any isVariable then none else some (ps.countP isChar)

theorem charCount?_cons : charCount? (p :: ps) =
    if p.isVariable then none else (charCount? ps).map (· + if p.isChar then 1 else 0) := by
  simp only [charCount?, List.any_cons, List.countP_cons, Bool.or_eq_true]
  by_cases hp : p.isVariable <;> by_cases hps : ps.any isVariable <;> simp [hp, hps]

theorem charCount?_append {qs : List Pattern} : charCount? (ps ++ qs) =
    (do return (← charCount? ps) + (← charCount? qs)) := by
  simp only [charCount?, List.any_append, List.countP_append, Bool.or_eq_true]
  by_cases hp : ps.any isVariable <;> by_cases hq : qs.any isVariable <;> simp [hp, hq]

end Pattern

namespace Annotated

open Pattern (charCount?)

variable {p : Pattern} {ps : List Pattern} {a : Annotated}

mutual

/-- The pattern without its lengths. -/
def erase : Annotated → Pattern
  | .char c _ => .char c
  | .concat as _ => .concat (eraseAll as)
  | .alt as => .alt (eraseAll as)
  | .group id a _ => .group id a.erase
  | .star a min max => .star a.erase min max
  | .exprRef id => .exprRef id
  | .strRef id => .strRef id

def eraseAll : List Annotated → List Pattern
  | [] => []
  | a :: as => a.erase :: eraseAll as

end

theorem erase_ofPattern (p : Pattern) : (ofPattern p).erase = p := by
  refine Pattern.forestInduction (fun ps => eraseAll (ofPatterns ps) = ps) ?node ?nil ?cons p
  case node =>
    intro p ih
    cases p with
    | concat ps | alt ps => simpa [ofPattern, erase, Pattern.children] using ih
    | group id p | star p min max =>
      simpa [ofPattern, ofPatterns, erase, eraseAll, Pattern.children] using ih
    | _ => rfl
  case nil => rfl
  case cons =>
    intro p ps ihp ihps
    rw [ofPatterns, eraseAll, ihp, ihps]

theorem ofPatterns_eq_map (ps : List Pattern) : ofPatterns ps = ps.map ofPattern := by
  induction ps with
  | nil => rfl
  | cons p ps ih => rw [ofPatterns, ih, List.map_cons]

theorem children_ofPattern (p : Pattern) :
    (ofPattern p).children = p.children.map ofPattern := by
  cases p <;> simp [ofPattern, children, Pattern.children, ofPatterns_eq_map]

/-- The nodes of the annotated tree are the annotated nodes of the tree, at the same addresses. -/
theorem nodeAt_ofPattern (p : Pattern) (path : List Nat) :
    nodeAt children (ofPattern p) path = (nodeAt Pattern.children p path).map ofPattern :=
  nodeAt_map children_ofPattern p path

/-- The length of a node is told from all nodes below it, however deep. -/
theorem length?_ofPattern (p : Pattern) : (ofPattern p).length? = charCount? p.nodes := by
  refine Pattern.forestInduction (fun ps => totalLength? (ofPatterns ps) =
    charCount? (Pattern.nodesOfAll ps)) ?node ?nil ?cons p
  case node =>
    intro p ih
    rw [Pattern.nodes_eq, Pattern.charCount?_cons, ← ih]
    cases p with
    | concat ps => simp [ofPattern, length?, Pattern.isVariable, Pattern.isChar, Pattern.children]
    | group id p =>
      simp [ofPattern, ofPatterns, length?, totalLength?, Pattern.isVariable, Pattern.isChar,
        Pattern.children]
    | _ => rfl
  case nil => rfl
  case cons =>
    intro p ps ihp ihps
    rw [ofPatterns, totalLength?, ihp, ihps, Pattern.nodesOfAll, Pattern.charCount?_append]

/-- Annotating keeps the tree and all that it carries. A node of the annotated tree has a length
just when there is no alternative, repetition or reference in it, and it is then the number of
characters in it. -/
theorem ofPattern_lengths (p : Pattern) :
    (ofPattern p).erase = p ∧
    (∀ path, (nodeAt children (ofPattern p) path).map erase = nodeAt Pattern.children p path) ∧
    ∀ path a, nodeAt children (ofPattern p) path = some a →
      a.length? = if ∃ q ∈ a.erase.nodes, q.isVariable then none
        else some (a.erase.nodes.countP Pattern.isChar) := by
  refine ⟨erase_ofPattern p, fun path => ?_, fun path a ha => ?_⟩
  · rw [nodeAt_ofPattern, Option.map_map]
    have hid : erase ∘ ofPattern = id := funext erase_ofPattern
    rw [hid, Option.map_id_fun, id]
  · rw [nodeAt_ofPattern, Option.map_eq_some_iff] at ha
    obtain ⟨q, -, rfl⟩ := ha
    rw [erase_ofPattern, length?_ofPattern, charCount?]
    simp only [List.any_eq_true]

/-- An empty sequence has a length, and so has a group, beside a repetition and an alternative that
leave the root without one. -/
theorem ofPattern_lengths_mixed :
    let p : Pattern := .concat [.group (some 3) (.concat [.char 'a', .concat [], .char 'b']),
      .star (.char 'c') 2 (some 5), .alt [.concat [.char 'd'], .strRef 3]]
    ∃ a b c, nodeAt children (ofPattern p) [0] = some a ∧ a.length? = some 2 ∧
      nodeAt children (ofPattern p) [0, 0, 1] = some b ∧ b.length? = some 0 ∧
      nodeAt children (ofPattern p) [] = some c ∧ c.length? = none ∧ c.erase = p := by
  intro p
  obtain ⟨herase, -, hlen⟩ := ofPattern_lengths p
  refine ⟨_, _, _, rfl, (hlen [0] _ rfl).trans ?_, rfl, (hlen [0, 0, 1] _ rfl).trans ?_, rfl,
    (hlen [] _ rfl).trans ?_, herase⟩
  · decide
  · decide
  · decide

end Annotated

end CaptureGrammar
