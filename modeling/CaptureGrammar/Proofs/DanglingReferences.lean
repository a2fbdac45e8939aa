import CaptureGrammar.Proofs.GroupNumbers
import CaptureGrammar.Proofs.Mentions
import CaptureGrammar.Proofs.NodeRules
import CaptureGrammar.Proofs.WellFormed
import Mathlib.Data.List.Induction

/-!
The nonterminals that a grammar mentions without a rule: those of references to groups that do not
exist.

The start symbol mentions the root, and then each node its children. A node that is no reference has
a rule for the nonterminal that mentions it, so what is left are references.
-/
namespace CaptureGrammar

open Grammar (ofPattern)
open Pattern (Parsed parse)

section

variable {ν μ : Type} [DecidableEq ν] [DecidableEq μ] {f : ν → μ} {g : Grammar ν} {n : ν}

namespace Grammar

end Grammar

end

variable {root p : Pattern} {k : Counts} {n : Nonterminal} {x : Visit} {xs : List Visit}
  {id : GroupId} {s : String} {r : Parsed}

/-- Where all nodes are told apart, the grammar mentions the root and then, node by node, what each
of them mentions. -/
theorem Grammar.mentioned_eq (hids : root.captures.Nodup)
    (hcounts : ∀ c, root.nodes.countP (·.category? = some c) ≤ UInt32.size) :
    (ofPattern root).mentioned =
      root.nonterminal {} :: (visits {} root.nodes).flatMap Visit.mentioned := by
  have hrules : (ofPattern root).mentioned = (ofPattern root).rules.flatMap Rule.mentioned := rfl
  rw [hrules, rules_ofPattern hids hcounts, List.flatMap_cons, List.flatMap_map,
    ← flatMap_mentioned_definers]
  rfl

end CaptureGrammar
