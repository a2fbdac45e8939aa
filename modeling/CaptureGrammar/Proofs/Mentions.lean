import CaptureGrammar.Proofs.RuleOrder
import Mathlib.Data.List.Perm.Basic

/-!
How often the grammar of a pattern mentions a nonterminal.

The root is mentioned for the start symbol, every other node for its parent, and a repetition once
more for itself.
-/
namespace CaptureGrammar

open Grammar (ofPattern)
open Pattern (nodesOfAll)

variable {root p : Pattern} {ps : List Pattern} {k : Counts} {n : Nonterminal} {x : Visit}
  {c : Category} {i : UInt32} {id : GroupId}

/-- Every node is the root or the child of one node. -/
theorem visits_perm_children (p : Pattern) : ∀ k, (visits k p.nodes).Perm
    (⟨k, p⟩ :: (visits k p.nodes).flatMap Visit.children) := by
  refine Pattern.forestInduction (fun ps => ∀ k, (visits k (nodesOfAll ps)).Perm
    (entries k ps ++ (visits k (nodesOfAll ps)).flatMap Visit.children)) ?node ?nil ?cons p
  case node =>
    intro p ih k
    rw [visits_nodes, List.flatMap_cons]
    exact (ih _).cons _
  case nil =>
    intro k
    exact .nil
  case cons =>
    intro p ps ihp ihps k
    rw [nodesOfAll, visits_append, List.flatMap_append, entries]
    apply ((ihp k).append (ihps _)).trans
    exact (List.perm_append_comm_assoc _ _ _).cons _

/-- The productions of the nodes mention every node but the root, and each repetition twice. -/
theorem mentioned_visits (p : Pattern) (k : Counts) :
    (p.nonterminal k :: (visits k p.nodes).flatMap Visit.mentioned).Perm
      ((visits k p.nodes).map Visit.nonterminal ++ (visits k p.nodes).flatMap Visit.loops) := by
  have hnodes : ((visits k p.nodes).flatMap Visit.mentioned).Perm
      ((visits k p.nodes).flatMap (fun x => x.children.map Visit.nonterminal) ++
        (visits k p.nodes).flatMap Visit.loops) :=
    (List.Perm.flatMap_left _ fun x _ => .of_eq x.mentioned_eq).trans
      (List.flatMap_append_perm _ _ _).symm
  have hparents := (visits_perm_children p k).map Visit.nonterminal
  rw [List.map_cons, List.map_flatMap] at hparents
  exact (hnodes.cons _).trans (hparents.symm.append_right _)

theorem mentioned_edits (p : Pattern) (k : Counts) : ((p.edits k).flatMap Edit.mentioned).Perm
    ((visits k p.nodes).flatMap Visit.mentioned) := by
  have hpushes := (p.pushes_perm_visits k).flatMap_right Edit.mentioned
  rw [flatMap_mentioned_filter_isPush, List.flatMap_assoc] at hpushes
  simpa only [mentioned_pushes] using hpushes

/-- The grammar of a pattern mentions each node once, and each repetition once more. -/
theorem Grammar.mentioned_ofPattern (root : Pattern) : (ofPattern root).mentioned.Perm
    ((visits {} root.nodes).map Visit.nonterminal ++
      (visits {} root.nodes).flatMap Visit.loops) := by
  have hrules : ((Rule.editAll [] root.allEdits).flatMap Rule.mentioned).Perm
      (root.allEdits.flatMap Edit.mentioned) := Rule.mentioned_editAll
  have hall : root.allEdits.flatMap Edit.mentioned =
      (root.edits {}).flatMap Edit.mentioned ++ [root.nonterminal {}] := by
    rw [Pattern.allEdits, List.cons_append, List.flatMap_cons, List.flatMap_append]
    rfl
  have hroot : (root.allEdits.flatMap Edit.mentioned).Perm
      (root.nonterminal {} :: (visits {} root.nodes).flatMap Visit.mentioned) := by
    rw [hall]
    exact List.perm_append_comm.trans ((mentioned_edits root {}).cons _)
  rw [ofPattern, Builder.ofPattern_eq]
  exact (hrules.trans hroot).trans (mentioned_visits root {})

/-! ### Counts -/

/-- Whether a node is a capturing group with a number or refers to it. -/
def Pattern.concerns (id : GroupId) : Pattern → Bool
  | .group (some i) _ | .exprRef i | .strRef i => i = id
  | _ => false

theorem Pattern.nonterminal_eq_capture_iff : p.nonterminal k = .capture id ↔ p.concerns id := by
  cases p with
  | group i p => cases i <;> simp [nonterminal, concerns, Counts.fresh]
  | _ => simp [nonterminal, concerns, Counts.fresh]

theorem count_flatMap_loops (xs : List Visit) : (xs.flatMap Visit.loops).count n =
    xs.countP fun x => x.node.category? = some .star ∧ x.nonterminal = n := by
  induction xs with
  | nil => rfl
  | cons x xs ih =>
    rw [List.flatMap_cons, List.count_append, ih, List.countP_cons, Nat.add_comm, Visit.loops]
    by_cases hx : x.node.category? = some .star <;> simp [hx, List.count_singleton]

namespace Grammar

theorem count_mentioned_ofPattern : (ofPattern root).mentioned.count n =
    (visits {} root.nodes).countP (·.nonterminal = n) +
      (visits {} root.nodes).countP fun x =>
        x.node.category? = some .star ∧ x.nonterminal = n := by
  rw [(mentioned_ofPattern root).count_eq, List.count_append, count_flatMap_loops, List.count,
    List.countP_map]
  rfl

/-- The nonterminal of no repetition is mentioned for its nodes only. -/
theorem count_mentioned_of_ne_star (h : ∀ i, n ≠ .node .star i) :
    (ofPattern root).mentioned.count n = (visits {} root.nodes).countP (·.nonterminal = n) := by
  rw [count_mentioned_ofPattern, Nat.add_eq_left, List.countP_eq_zero]
  intro x _ hx
  obtain ⟨hstar, hxn⟩ := of_decide_eq_true hx
  exact h _ (hxn.symm.trans (Pattern.nonterminal_eq_node_iff.mpr ⟨hstar, rfl⟩))

/-- A counted nonterminal with a rule is mentioned once, and that of a repetition twice. -/
theorem count_mentioned_node (hn : root.nodes.length < UInt32.size)
    (h : .node c i ∈ (ofPattern root).rules.map Rule.lhs) :
    (ofPattern root).mentioned.count (.node c i) = if c = .star then 2 else 1 := by
  obtain ⟨x, hx, hxn⟩ := exists_visit_of_node_mem_lhs h
  have hone : (visits {} root.nodes).countP (·.nonterminal = .node c i) = 1 := by
    rw [List.countP_eq_length_filter, filter_nonterminal_visits (countP_le_size hn) hx hxn]
    rfl
  split
  · next hc =>
    subst hc
    have hself : ∀ y : Visit, y.node.category? = some .star ∧ y.nonterminal = .node .star i ↔
        y.nonterminal = .node .star i :=
      fun y => and_iff_right_of_imp fun hy => (Pattern.nonterminal_eq_node_iff.mp hy).1
    rw [count_mentioned_ofPattern]
    simp only [hself, hone]
  · next hc =>
    rw [count_mentioned_of_ne_star, hone]
    rintro j ⟨⟩
    exact hc rfl

/-- The nonterminal of a group number is mentioned for each node that concerns the number. -/
theorem count_mentioned_capture :
    (ofPattern root).mentioned.count (.capture id) = root.nodes.countP (·.concerns id) := by
  have hnodes : root.nodes.countP (·.concerns id) =
      (visits {} root.nodes).countP fun x => x.node.concerns id := by
    rw [← map_node_visits {} root.nodes, List.countP_map, map_node_visits]
    rfl
  rw [count_mentioned_of_ne_star (by simp), hnodes]
  apply List.countP_congr
  intro x _
  rw [decide_eq_true_iff]
  exact Pattern.nonterminal_eq_capture_iff

theorem start_notMem_mentioned : .start ∉ (ofPattern root).mentioned := by
  rw [← List.count_eq_zero, count_mentioned_of_ne_star (by simp), List.countP_eq_zero]
  intro x _ hx
  exact Pattern.nonterminal_ne_start (of_decide_eq_true hx)

end Grammar

end CaptureGrammar
