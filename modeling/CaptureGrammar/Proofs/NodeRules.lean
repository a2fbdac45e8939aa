import CaptureGrammar.Proofs.Passage
import CaptureGrammar.Proofs.ProductionOrder
import CaptureGrammar.Proofs.RuleOrder

/-!
The rules of a pattern whose nodes are all told apart.

Where no two groups share a number and no counter starts over, every node that is no reference has a
rule of its own, with its own productions, and the rules stand in the order of the nodes.
-/
namespace CaptureGrammar

open Grammar (ofPattern)

variable {root p : Pattern} {ps : List Pattern} {k : Counts} {n : Nonterminal} {x : Visit}
  {xs : List Visit}

/-- The visits to nodes that have rules. -/
def definers (xs : List Visit) : List Visit := xs.filter fun x => !x.node.isReference

/-- The rule that a node has for itself alone. -/
def Visit.rule (x : Visit) : Rule Nonterminal := ⟨x.nonterminal, x.productions⟩

theorem mem_definers : x ∈ definers xs ↔ x ∈ xs ∧ x.node.isReference = false := by
  simp [definers]

theorem definers_cons :
    definers (x :: xs) = if x.node.isReference then definers xs else x :: definers xs := by
  rw [definers, List.filter_cons]
  cases x.node.isReference <;> rfl

theorem map_nonterminal_definers :
    (definers (visits k ps)).map Visit.nonterminal = definedNames k ps := by
  rw [definedNames]
  induction visits k ps with
  | nil => rfl
  | cons x xs ih =>
    rw [List.flatMap_cons, ← ih, definers_cons, Visit.defined]
    cases x.node.isReference <;> rfl

/-- References mention nothing. -/
theorem flatMap_mentioned_definers (xs : List Visit) :
    (definers xs).flatMap Visit.mentioned = xs.flatMap Visit.mentioned := by
  induction xs with
  | nil => rfl
  | cons x xs ih =>
    rw [List.flatMap_cons, ← ih, definers_cons]
    cases hx : x.node.isReference with
    | false => rfl
    | true =>
      rw [Visit.mentioned, productions_of_isReference hx]
      rfl

/-- A node that has a rule is counted or is a capturing group. -/
theorem category?_or_captureId? (h : p.isReference = false) :
    (∃ c, p.category? = some c) ∨ ∃ id, p.captureId? = some id := by
  cases p with
  | group id p =>
    cases id with
    | none => exact .inl ⟨_, rfl⟩
    | some id => exact .inr ⟨id, rfl⟩
  | exprRef | strRef => cases h
  | _ => exact .inl ⟨_, rfl⟩

theorem not_defines_of_cons (hids : ((p :: ps).filterMap Pattern.captureId?).Nodup)
    (hcounts : ∀ c, (p :: ps).countP (·.category? = some c) ≤ UInt32.size)
    (hp : p.isReference = false) : ¬ Defines (k.pass p) ps (p.nonterminal k) := by
  rcases category?_or_captureId? hp with ⟨c, hc⟩ | ⟨id, hid⟩
  · have hnode : p.nonterminal k = .node c (k.get c + 1) :=
      Pattern.nonterminal_eq_node_iff.mpr ⟨hc, rfl⟩
    rw [hnode]
    rintro ⟨x, hx, -, hxn⟩
    exact nonterminal_ne_of_mem_visits (hcounts c) hx hnode hxn
  · rw [nonterminal_of_captureId hid, defines_capture_iff]
    rintro ⟨q, hq, hqid⟩
    rw [List.filterMap_cons_some hid, List.nodup_cons] at hids
    exact hids.1 (List.mem_filterMap.mpr ⟨q, hq, hqid⟩)

/-- Nodes that are told apart have different nonterminals. -/
theorem nodup_definedNames (hids : (ps.filterMap Pattern.captureId?).Nodup)
    (hcounts : ∀ c, ps.countP (·.category? = some c) ≤ UInt32.size) :
    (definedNames k ps).Nodup := by
  induction ps generalizing k with
  | nil => exact List.nodup_nil
  | cons p ps ih =>
    have hrest : (definedNames (k.pass p) ps).Nodup :=
      ih (hids.sublist ((List.sublist_cons_self p ps).filterMap _)) fun c =>
        Nat.le_trans (List.sublist_cons_self p ps).countP_le (hcounts c)
    have hcons : definedNames k (p :: ps) =
        (Visit.mk k p).defined ++ definedNames (k.pass p) ps := rfl
    rw [hcons, Visit.defined]
    cases hp : p.isReference with
    | true => simpa [hp] using hrest
    | false =>
      have hnew : p.nonterminal k ∉ definedNames (k.pass p) ps := by
        rw [mem_definedNames]
        exact not_defines_of_cons hids hcounts hp
      simpa [hp, Visit.nonterminal] using ⟨hnew, hrest⟩

theorem eraseDups_of_nodup {α : Type} [BEq α] [LawfulBEq α] {l : List α} (h : l.Nodup) :
    l.eraseDups = l := by
  induction l with
  | nil => rfl
  | cons a l ih =>
    rw [List.nodup_cons] at h
    have hothers : l.filter (fun b => !b == a) = l := by
      rw [List.filter_eq_self]
      intro b hb
      have hne : b ≠ a := fun heq => h.1 (heq ▸ hb)
      simpa using hne
    rw [List.eraseDups_cons, hothers, ih h.2]

/-! ### Productions -/

theorem productionsFor_eq_nil (h : n ∉ (definers xs).map Visit.nonterminal) :
    productionsFor n xs = [] := by
  rw [productionsFor, List.flatMap_eq_nil_iff]
  intro x hx
  obtain ⟨hx, hxn⟩ := List.mem_filter.mp hx
  cases href : x.node.isReference with
  | true => exact productions_of_isReference href
  | false =>
    have hmem : n ∈ (definers xs).map Visit.nonterminal :=
      List.mem_map.mpr ⟨x, mem_definers.mpr ⟨hx, href⟩, of_decide_eq_true hxn⟩
    exact absurd hmem h

/-- Where no two nodes share a nonterminal, it has the productions of its node. -/
theorem productionsFor_of_nodup (h : ((definers xs).map Visit.nonterminal).Nodup)
    (hx : x ∈ definers xs) : productionsFor x.nonterminal xs = x.productions := by
  induction xs with
  | nil => cases hx
  | cons y ys ih =>
    rw [← List.singleton_append, productionsFor_append, productionsFor_singleton]
    rw [definers_cons] at h hx
    cases hy : y.node.isReference with
    | true =>
      rw [if_pos hy] at h hx
      rw [productions_of_isReference hy, ite_self, List.nil_append, ih h hx]
    | false =>
      rw [if_neg (by simp [hy])] at h hx
      rw [List.map_cons, List.nodup_cons] at h
      rcases List.mem_cons.mp hx with rfl | hx
      · rw [if_pos rfl, productionsFor_eq_nil h.1, List.append_nil]
      · have hne : y.nonterminal ≠ x.nonterminal :=
          fun heq => h.1 (List.mem_map.mpr ⟨x, hx, heq.symm⟩)
        rw [if_neg hne, List.nil_append, ih h.2 hx]

namespace Grammar

/-- The start symbol has the first rule, and after it each node that is no reference has its own, in
the order in which the walk comes to the nodes. -/
theorem rules_ofPattern (hids : root.captures.Nodup)
    (hcounts : ∀ c, root.nodes.countP (·.category? = some c) ≤ UInt32.size) :
    (ofPattern root).rules = ⟨.start, [[.nonterminal (root.nonterminal {})]]⟩ ::
      (definers (visits {} root.nodes)).map Visit.rule := by
  have hnodup : (definedNames {} root.nodes).Nodup := nodup_definedNames hids hcounts
  have hperm : (definers (finished {} root)).Perm (definers (visits {} root.nodes)) :=
    (finished_perm_visits root {}).filter _
  have hnames : ((definers (finished {} root)).map Visit.nonterminal).Nodup :=
    (hperm.map _).nodup_iff.mpr (map_nonterminal_definers ▸ hnodup)
  have hproductions : ∀ n, Rule.productionsOf n (ofPattern root).rules = if n = .start then
      [[.nonterminal (root.nonterminal {})]] else productionsFor n (finished {} root) :=
    fun _ => productionsOf_ofPattern_of_countP (hcounts .alt)
  rw [Rule.eq_map_productionsOf (nodup_lhs_ofPattern root), map_lhs_ofPattern,
    eraseDups_of_nodup hnodup, ← map_nonterminal_definers, List.map_cons, List.map_map,
    hproductions, if_pos rfl]
  congr 1
  apply List.map_congr_left
  intro x hx
  have hne : x.nonterminal ≠ .start := Pattern.nonterminal_ne_start
  rw [Function.comp_apply, hproductions, if_neg hne,
    productionsFor_of_nodup hnames (hperm.mem_iff.mpr hx)]
  rfl

end Grammar

end CaptureGrammar
