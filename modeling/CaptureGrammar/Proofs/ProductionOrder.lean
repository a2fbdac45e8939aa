import CaptureGrammar.Proofs.CompletionOrder
import CaptureGrammar.Proofs.Productions

/-!
The order of the productions in each rule: those of its nodes, in the order in which the nodes are
completed.
-/
namespace CaptureGrammar

open Grammar (ofPattern)
open Pattern (editsOfAll editsOfBranches)
open Rule (pushedTo)

variable {root p : Pattern} {ps : List Pattern} {k : Counts} {n m : Nonterminal} {x : Visit}
  {es : List (Edit Nonterminal)}

theorem pushedTo_append {fs : List (Edit Nonterminal)} :
    pushedTo n (es ++ fs) = pushedTo n es ++ pushedTo n fs := List.filterMap_append

theorem pushedTo_map_push (qs : List (Production Nonterminal)) :
    pushedTo n (qs.map (.push m)) = if m = n then qs else [] := by
  induction qs with
  | nil => exact (ite_self []).symm
  | cons q qs ih =>
    rw [List.map_cons, ← List.singleton_append, pushedTo_append, ih]
    by_cases h : m = n <;> simp [pushedTo, h]

theorem pushedTo_pushes :
    pushedTo n x.pushes = if x.nonterminal = n then x.productions else [] := pushedTo_map_push _

/-- The productions that some nodes give to `n`, in order. -/
def productionsFor (n : Nonterminal) (xs : List Visit) : List (Production Nonterminal) :=
  (xs.filter (·.nonterminal = n)).flatMap Visit.productions

theorem productionsFor_append {xs ys : List Visit} :
    productionsFor n (xs ++ ys) = productionsFor n xs ++ productionsFor n ys := by
  rw [productionsFor, List.filter_append, List.flatMap_append]
  rfl

theorem productionsFor_singleton :
    productionsFor n [x] = if x.nonterminal = n then x.productions else [] := by
  by_cases hx : x.nonterminal = n <;> simp [productionsFor, hx]

/-- References to a group add nothing to its productions. -/
theorem productionsFor_capture {id : GroupId} {xs : List Visit} : productionsFor (.capture id) xs =
    (xs.filter (·.node.captureId? = some id)).flatMap Visit.productions := by
  induction xs with
  | nil => rfl
  | cons x xs ih =>
    rw [← List.singleton_append, productionsFor_append, productionsFor_singleton, ih,
      List.filter_append, List.flatMap_append]
    congr 1
    cases hr : x.node.isReference with
    | true =>
      have hnone : x.node.captureId? ≠ some id := by
        intro hid
        rw [isReference_of_captureId hid] at hr
        cases hr
      simp [productions_of_isReference hr, hnone]
    | false =>
      have hiff : x.nonterminal = .capture id ↔ x.node.captureId? = some id :=
        ⟨captureId_of_nonterminal hr, nonterminal_of_captureId⟩
      by_cases hid : x.node.captureId? = some id <;> simp [hiff, hid]

/-- A counted nonterminal has the productions of its node. -/
theorem productionsFor_of_counted {c : Category} {i : UInt32}
    (hn : root.nodes.countP (·.category? = some c) ≤ UInt32.size) (hx : x ∈ visits {} root.nodes)
    (hc : x.nonterminal = .node c i) :
    productionsFor (.node c i) (finished {} root) = x.productions := by
  have hone : ((finished {} root).filter (·.nonterminal = .node c i)).Perm [x] :=
    filter_nonterminal_visits hn hx hc ▸ (finished_perm_visits root {}).filter _
  rw [productionsFor, List.perm_singleton.mp hone]
  exact List.append_nil _

theorem pushedTo_editsOfBranches_of_ne (h : m ≠ n) :
    pushedTo n (editsOfBranches m k ps) = pushedTo n (editsOfAll k ps) := by
  induction ps generalizing k with
  | nil => rfl
  | cons p ps ih =>
    rw [editsOfBranches, editsOfAll, pushedTo_append, pushedTo_append, ← ih]
    simp [pushedTo, h]

theorem pushedTo_editsOfBranches_self (h : pushedTo n (editsOfAll k ps) = []) :
    pushedTo n (editsOfBranches n k ps) =
      (entries k ps).map fun y => [.nonterminal y.nonterminal] := by
  induction ps generalizing k with
  | nil => rfl
  | cons p ps ih =>
    rw [editsOfAll, pushedTo_append, List.append_eq_nil_iff] at h
    have hrest := ih h.2
    rw [editsOfBranches, pushedTo_append, h.1, entries, List.map_cons, ← hrest]
    simp [pushedTo, Visit.nonterminal]

/-- No node below a counted node pushes to its nonterminal. -/
theorem pushedTo_editsOfAll_eq_nil {c : Category} {i : UInt32}
    (hn : p.nodes.countP (·.category? = some c) ≤ UInt32.size) (hp : p.nonterminal k = .node c i) :
    pushedTo (p.nonterminal k) (editsOfAll (k.pass p) p.children) = [] := by
  rw [List.eq_nil_iff_forall_not_mem]
  intro q hq
  obtain ⟨x, hx, hxp, -⟩ := (Pattern.push_mem_editsOfAll _ _).mp (Rule.mem_pushedTo.mp hq)
  rw [Pattern.nodes_eq] at hn
  exact nonterminal_ne_of_mem_visits hn hx hp (hxp.trans hp)

/-- A node pushes its productions after those of the nodes below it. Alternations do so because the
nodes below them have other nonterminals. -/
theorem pushedTo_edits (hn : p.nodes.countP (·.category? = some .alt) ≤ UInt32.size) :
    pushedTo n (p.edits k) =
      pushedTo n (editsOfAll (k.pass p) p.children) ++ productionsFor n [⟨k, p⟩] := by
  rw [productionsFor_singleton]
  rcases p.edits_cases k with ⟨href, hedits, hchildren⟩ | ⟨ps, rfl⟩ | ⟨-, hedits⟩
  · rw [hedits, hchildren, productions_of_isReference href, ite_self]
    rfl
  · change pushedTo n (editsOfBranches (k.fresh .alt) (k.next .alt) ps) =
      pushedTo n (editsOfAll (k.next .alt) ps) ++
      if k.fresh .alt = n then (entries (k.next .alt) ps).map _ else []
    split
    · next hx =>
      subst hx
      have hbelow : pushedTo (k.fresh .alt) (editsOfAll (k.next .alt) ps) = [] :=
        pushedTo_editsOfAll_eq_nil hn rfl
      rw [pushedTo_editsOfBranches_self hbelow, hbelow]
      rfl
    · next hx => rw [pushedTo_editsOfBranches_of_ne hx, List.append_nil]
  · rw [hedits, pushedTo_append, pushedTo_pushes]
    rfl

theorem pushedTo_edits_eq (p : Pattern) :
    ∀ k, p.nodes.countP (·.category? = some .alt) ≤ UInt32.size →
      pushedTo n (p.edits k) = productionsFor n (finished k p) := by
  refine Pattern.forestInduction
    (fun ps => ∀ k, (Pattern.nodesOfAll ps).countP (·.category? = some .alt) ≤ UInt32.size →
      pushedTo n (editsOfAll k ps) = productionsFor n (finishedOfAll k ps)) ?node ?nil ?cons p
  case node =>
    intro p ih k hn
    have hbelow : (Pattern.nodesOfAll p.children).countP (·.category? = some .alt) ≤
        UInt32.size := by
      rw [Pattern.nodes_eq] at hn
      exact Nat.le_trans (List.sublist_cons_self _ _).countP_le hn
    rw [pushedTo_edits hn, ih _ hbelow, finished_eq, productionsFor_append]
  case nil =>
    intro k _
    rfl
  case cons =>
    intro p ps ihp ihps k hn
    rw [Pattern.nodesOfAll, List.countP_append] at hn
    rw [editsOfAll, pushedTo_append, ihp k (by omega), ihps _ (by omega), finishedOfAll,
      productionsFor_append]

/-- The start symbol has the root as its production, and every other nonterminal has the productions
of its nodes, in the order in which these are completed. -/
theorem Grammar.productionsOf_ofPattern_of_countP
    (hn : root.nodes.countP (·.category? = some .alt) ≤ UInt32.size) :
    Rule.productionsOf n (ofPattern root).rules = if n = .start then
      [[.nonterminal (root.nonterminal {})]] else productionsFor n (finished {} root) := by
  have hrules : Rule.productionsOf n (ofPattern root).rules = pushedTo n root.allEdits := by
    rw [ofPattern, Builder.ofPattern_eq]
    exact Rule.productionsOf_editAll
  have hnodes : pushedTo n root.allEdits = productionsFor n (finished {} root) ++
      pushedTo n [.push .start [.nonterminal (root.nonterminal {})]] := by
    rw [← pushedTo_edits_eq root {} hn, ← pushedTo_append]
    rfl
  rw [hrules, hnodes]
  split
  · next hs =>
    have hnone : productionsFor n (finished {} root) = [] := by
      rw [productionsFor, List.filter_eq_nil_iff.mpr]
      · rfl
      · intro x _
        rw [hs, decide_eq_true_iff]
        exact Pattern.nonterminal_ne_start
    rw [hnone, hs]
    rfl
  · next hs =>
    simp [pushedTo, Ne.symm hs]

theorem Grammar.productionsOf_ofPattern (hn : root.nodes.length < UInt32.size) :
    Rule.productionsOf n (ofPattern root).rules = if n = .start then
      [[.nonterminal (root.nonterminal {})]] else productionsFor n (finished {} root) :=
  productionsOf_ofPattern_of_countP (countP_le_size hn)

end CaptureGrammar
