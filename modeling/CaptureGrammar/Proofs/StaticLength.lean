import CaptureGrammar.Proofs.AnnotatedLengths
import CaptureGrammar.Proofs.GrammarLanguage
import CaptureGrammar.Proofs.GroupNumbers

/-!
A node whose annotation carries a length matches one word, of that length.

Such a node has nothing but characters, sequences and groups below it, and a group matches as its
own body does when no other group has its number.
-/
namespace CaptureGrammar

variable {root p q : Pattern} {ps : List Pattern} {k : Nat} {w : List Char}

namespace Pattern

def literal? : Pattern → Option Char
  | .char c => some c
  | _ => none

/-- The characters that stand for themselves, from left to right. -/
def literals (p : Pattern) : List Char := p.nodes.filterMap literal?

def literalsOfAll (ps : List Pattern) : List Char := (nodesOfAll ps).filterMap literal?

theorem literals_eq (p : Pattern) : p.literals = p.literal?.toList ++ literalsOfAll p.children := by
  rw [literals, nodes_eq, List.filterMap_cons]
  cases p.literal? <;> rfl

theorem literalsOfAll_cons : literalsOfAll (p :: ps) = p.literals ++ literalsOfAll ps := by
  rw [literalsOfAll, nodesOfAll, List.filterMap_append]
  rfl

theorem literalsOfAll_singleton : literalsOfAll [p] = p.literals := by
  rw [literalsOfAll_cons]
  exact List.append_nil _

theorem literals_group {id : Option GroupId} : (group id p).literals = p.literals := by
  rw [literals_eq, children, literalsOfAll_singleton]
  rfl

/-- Whether `p` matches its own characters and nothing else, and they are `k`. -/
def MatchesLiterally (root p : Pattern) (k : Nat) : Prop :=
  p.literals.length = k ∧ ∀ w, root.Matches p w ↔ w = p.literals

theorem MatchesLiterally.group (h : MatchesLiterally root p k) :
    MatchesLiterally root (.group none p) k := by
  rw [MatchesLiterally, literals_group]
  refine ⟨h.1, fun w => ⟨?_, ?_⟩⟩
  · intro hw
    cases hw with
    | group hw => exact (h.2 w).mp hw
  · intro hw
    exact .group ((h.2 w).mpr hw)

/-- A capturing group matches what its body does, as the body belongs to it alone. -/
theorem MatchesLiterally.capture {id : GroupId} (h : MatchesLiterally root p k)
    (hids : root.captures.Nodup) (hp : .group (some id) p ∈ root.nodes) :
    MatchesLiterally root (.group (some id) p) k := by
  rw [MatchesLiterally, literals_group]
  refine ⟨h.1, fun w => ⟨?_, ?_⟩⟩
  · intro hw
    cases hw with
    | capture hq hw =>
      rw [body_eq_of_nodup_captures hids hq hp] at hw
      exact (h.2 w).mp hw
  · intro hw
    exact .capture hp ((h.2 w).mpr hw)

end Pattern

open Grammar (ofPattern)
open Pattern (Parsed parse)

end CaptureGrammar
