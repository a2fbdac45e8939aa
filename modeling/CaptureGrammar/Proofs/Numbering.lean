import CaptureGrammar.Grammar.OfPattern
import CaptureGrammar.Proofs.Address
import CaptureGrammar.Proofs.Tree

/-! The nonterminal of each node, from the nodes that precede it. -/
namespace CaptureGrammar

variable {k l : Counts} {c d : Category} {p q : Pattern} {ps qs : List Pattern} {i : UInt32}

/-- The category in which a node is counted. Capturing groups and references have none. -/
def Pattern.category? : Pattern → Option Category
  | .char _ => some .char
  | .concat _ => some .concat
  | .alt _ => some .alt
  | .group none _ => some .group
  | .star .. => some .star
  | .group (some _) _ | .exprRef _ | .strRef _ => none

namespace Counts

/-- The nonterminal of the next node of a category. -/
def fresh (k : Counts) (c : Category) : Nonterminal := .node c ((k.next c).get c)

/-- The counts after one more node. -/
def pass (k : Counts) (p : Pattern) : Counts := p.category?.elim k k.next

def passAll (k : Counts) (ps : List Pattern) : Counts := ps.foldl pass k

@[simp] theorem pass_concat : k.pass (.concat ps) = k.next .concat := rfl

@[simp] theorem pass_alt : k.pass (.alt ps) = k.next .alt := rfl

@[simp] theorem pass_star {min max} : k.pass (.star p min max) = k.next .star := rfl

theorem get_next : (k.next c).get d = if c = d then k.get d + 1 else k.get d := by
  cases c <;> cases d <;> rfl

theorem fresh_eq_node_iff : k.fresh d = .node c i ↔ d = c ∧ i = k.get c + 1 := by
  rw [fresh, Nonterminal.node.injEq]
  constructor
  · rintro ⟨rfl, rfl⟩
    simp [get_next]
  · rintro ⟨rfl, rfl⟩
    simp [get_next]

theorem get_pass : (k.pass p).get c = if p.category? = some c then k.get c + 1 else k.get c := by
  simp only [pass]
  cases p.category? with
  | none => rfl
  | some d => simp [get_next]

/-- A counter goes up by one, unless it starts over. -/
theorem toNat_get_pass (hp : p.category? = some c) (h : (k.get c).toNat + 1 < UInt32.size) :
    ((k.pass p).get c).toNat = (k.get c).toNat + 1 := by
  rw [get_pass, if_pos hp, UInt32.toNat_add, UInt32.toNat_one]
  simp only [UInt32.size] at h
  omega

@[simp] theorem passAll_cons : k.passAll (p :: ps) = (k.pass p).passAll ps := rfl

@[simp] theorem passAll_append : k.passAll (ps ++ qs) = (k.passAll ps).passAll qs :=
  List.foldl_append

theorem toNat_get_passAll
    (h : (k.get c).toNat + ps.countP (·.category? = some c) < UInt32.size) :
    ((k.passAll ps).get c).toNat = (k.get c).toNat + ps.countP (·.category? = some c) := by
  induction ps generalizing k with
  | nil => rfl
  | cons p ps ih =>
    rw [List.countP_cons] at h ⊢
    rw [passAll_cons]
    by_cases hp : p.category? = some c
    · rw [if_pos (decide_eq_true hp)] at h ⊢
      have hget := toNat_get_pass (k := k) hp (by omega)
      rw [ih (by omega), hget]
      omega
    · rw [if_neg (by simpa using hp)] at h ⊢
      have hget : (k.pass p).get c = k.get c := by rw [get_pass, if_neg hp]
      rw [ih (by rwa [hget]), hget]
      rfl

end Counts

/-- The nonterminal of a node that is reached with counts `k`. -/
def Pattern.nonterminal (k : Counts) : Pattern → Nonterminal
  | .char _ => k.fresh .char
  | .concat _ => k.fresh .concat
  | .alt _ => k.fresh .alt
  | .group none _ => k.fresh .group
  | .star .. => k.fresh .star
  | .group (some id) _ | .exprRef id | .strRef id => .capture id

theorem Pattern.nonterminal_eq_node_iff :
    p.nonterminal k = .node c i ↔ p.category? = some c ∧ i = k.get c + 1 := by
  cases p with
  | group id p => cases id <;> simp [nonterminal, category?, Counts.fresh_eq_node_iff]
  | _ => simp [nonterminal, category?, Counts.fresh_eq_node_iff]

theorem Pattern.nonterminal_ne_start : p.nonterminal k ≠ .start := by
  cases p with
  | group id p => cases id <;> nofun
  | _ => nofun

/-- A node as the walk over a tree reaches it: `counts` are of the nodes before it. -/
structure Visit where
  counts : Counts
  node : Pattern

def Visit.nonterminal (x : Visit) : Nonterminal := x.node.nonterminal x.counts

/-- Nodes in a row, each with the counts of those before it. -/
def visits (k : Counts) : List Pattern → List Visit
  | [] => []
  | p :: ps => ⟨k, p⟩ :: visits (k.pass p) ps

theorem visits_append : visits k (ps ++ qs) = visits k ps ++ visits (k.passAll ps) qs := by
  induction ps generalizing k with
  | nil => rfl
  | cons p ps ih => simp [visits, ih]

theorem map_node_visits (k : Counts) (ps : List Pattern) : (visits k ps).map Visit.node = ps := by
  induction ps generalizing k with
  | nil => rfl
  | cons p ps ih => simp [visits, ih]

variable {x y : Visit}

theorem mem_nodes_of_mem_visits (hx : x ∈ visits k ps) : x.node ∈ ps := by
  have hmem : x.node ∈ (visits k ps).map Visit.node := List.mem_map.mpr ⟨x, hx, rfl⟩
  rwa [map_node_visits] at hmem

/-! ### Distinct numbers -/

/-- Nodes that are few enough to be counted have few enough of each category. -/
theorem countP_le_size {f : Pattern → Bool} (h : ps.length < UInt32.size) :
    ps.countP f ≤ UInt32.size :=
  Nat.le_of_lt (Nat.lt_of_le_of_lt List.countP_le_length h)

/-- A later node finds the count of its category higher by the nodes of it in between. -/
theorem get_of_mem_visits (h : x ∈ visits k ps) (hc : x.node.category? = some c) :
    ∃ j < ps.countP (·.category? = some c), x.counts.get c = k.get c + .ofNat j := by
  induction ps generalizing k with
  | nil => cases h
  | cons q ps ih =>
    rw [List.countP_cons]
    rcases List.mem_cons.mp h with rfl | h
    · refine ⟨0, ?_, (UInt32.add_zero _).symm⟩
      rw [if_pos (decide_eq_true hc)]
      exact Nat.zero_lt_succ _
    · obtain ⟨j, hj, hx⟩ := ih h
      rw [Counts.get_pass] at hx
      split at hx
      · next hq =>
        refine ⟨j + 1, ?_, ?_⟩
        · rw [if_pos (decide_eq_true hq)]
          exact Nat.succ_lt_succ hj
        · rw [hx, UInt32.ofNat_add, UInt32.add_assoc, UInt32.add_comm 1]
          rfl
      · exact ⟨j, Nat.lt_of_lt_of_le hj (Nat.le_add_right _ _), hx⟩

/-- While the count of its category does not wrap around, no later node gets the number of a counted
one. -/
theorem nonterminal_ne_of_mem_visits
    (hn : (p :: ps).countP (·.category? = some c) ≤ UInt32.size)
    (hx : x ∈ visits (k.pass p) ps) (hc : p.nonterminal k = .node c i) :
    x.nonterminal ≠ .node c i := by
  intro h
  obtain ⟨hp, rfl⟩ := Pattern.nonterminal_eq_node_iff.mp hc
  obtain ⟨hxc, hi⟩ := Pattern.nonterminal_eq_node_iff.mp h
  obtain ⟨j, hj, hl⟩ := get_of_mem_visits hx hxc
  rw [hl, Counts.get_pass, if_pos hp] at hi
  have hi := congrArg UInt32.toNat hi
  rw [List.countP_cons, if_pos (decide_eq_true hp)] at hn
  simp only [UInt32.toNat_add, UInt32.toNat_ofNat', UInt32.toNat_one] at hi
  simp only [UInt32.size] at hn
  omega

/-- A counted nonterminal has one node. -/
theorem filter_nonterminal_visits (hn : ps.countP (·.category? = some c) ≤ UInt32.size)
    (hx : x ∈ visits k ps) (hc : x.nonterminal = .node c i) :
    (visits k ps).filter (·.nonterminal = .node c i) = [x] := by
  induction ps generalizing k with
  | nil => cases hx
  | cons p ps ih =>
    rw [visits, List.filter_cons]
    rcases List.mem_cons.mp hx with rfl | hx
    · have hrest : (visits (k.pass p) ps).filter (·.nonterminal = .node c i) = [] := by
        rw [List.filter_eq_nil_iff]
        intro y hy
        simpa using nonterminal_ne_of_mem_visits hn hy hc
      rw [if_pos (by simpa using hc), hrest]
    · have hp : (Visit.mk k p).nonterminal ≠ .node c i :=
        fun hp => nonterminal_ne_of_mem_visits hn hx hp hc
      have hps : ps.countP (·.category? = some c) ≤ UInt32.size :=
        Nat.le_trans (List.sublist_cons_self p ps).countP_le hn
      rw [if_neg (by simpa using hp)]
      exact ih hps hx

/-- No two nodes share a counted nonterminal. -/
theorem visit_eq_of_nonterminal_eq (hn : ps.length < UInt32.size) (hx : x ∈ visits k ps)
    (hy : y ∈ visits k ps) (hxc : x.nonterminal = .node c i) (hyc : y.nonterminal = .node c i) :
    x = y := by
  have hmem : x ∈ (visits k ps).filter (·.nonterminal = .node c i) :=
    List.mem_filter.mpr ⟨hx, decide_eq_true hxc⟩
  rw [filter_nonterminal_visits (countP_le_size hn) hy hyc] at hmem
  exact List.mem_singleton.mp hmem

/-! ### The visits below a visit -/

/-- The first visits to patterns in a row, of which the first is reached with counts `k`. -/
def entries (k : Counts) : List Pattern → List Visit
  | [] => []
  | p :: ps => ⟨k, p⟩ :: entries (k.passAll p.nodes) ps

def Visit.children (x : Visit) : List Visit := entries (x.counts.pass x.node) x.node.children

theorem map_node_entries (k : Counts) (ps : List Pattern) : (entries k ps).map Visit.node = ps := by
  induction ps generalizing k with
  | nil => rfl
  | cons p ps ih => simp [entries, ih]

theorem map_node_children : x.children.map Visit.node = x.node.children := map_node_entries _ _

theorem visits_nodes : visits k p.nodes =
    ⟨k, p⟩ :: visits (k.pass p) (Pattern.nodesOfAll p.children) := by
  rw [Pattern.nodes_eq, visits]

theorem root_mem_visits : ⟨k, p⟩ ∈ visits k p.nodes := by
  rw [visits_nodes]
  exact List.mem_cons_self

theorem entries_subset_visits : entries k ps ⊆ visits k (Pattern.nodesOfAll ps) := by
  induction ps generalizing k with
  | nil => exact List.Subset.refl _
  | cons p ps ih =>
    intro y hy
    rw [Pattern.nodesOfAll, visits_append, List.mem_append]
    rcases List.mem_cons.mp hy with rfl | hy
    · exact .inl root_mem_visits
    · exact .inr (ih hy)

/-- With each visit there are those to the children of its node. -/
def Closed (xs : List Visit) : Prop := ∀ x ∈ xs, x.children ⊆ xs

theorem closed_visits_nodesOfAll (h : ∀ p ∈ ps, ∀ k, Closed (visits k p.nodes)) :
    Closed (visits k (Pattern.nodesOfAll ps)) := by
  induction ps generalizing k with
  | nil =>
    intro x hx
    cases hx
  | cons p ps ih =>
    intro x hx y hy
    rw [Pattern.nodesOfAll, visits_append, List.mem_append] at hx ⊢
    rcases hx with hx | hx
    · exact .inl (h p List.mem_cons_self k x hx hy)
    · exact .inr (ih (fun q hq => h q (List.mem_cons_of_mem _ hq)) x hx hy)

theorem closed_visits_nodes (p : Pattern) : ∀ k, Closed (visits k p.nodes) := by
  induction p using Pattern.childrenInduction with
  | node p ih =>
    intro k x hx y hy
    rw [visits_nodes] at hx ⊢
    apply List.mem_cons_of_mem
    rcases List.mem_cons.mp hx with rfl | hx
    · exact entries_subset_visits hy
    · exact closed_visits_nodesOfAll ih x hx hy

/-- What holds of the first visit, and with a visit of those to the children, holds of all. -/
theorem forall_mem_visits {motive : Visit → Prop} (p : Pattern) : ∀ k, motive ⟨k, p⟩ →
    (∀ x ∈ visits k p.nodes, motive x → ∀ y ∈ x.children, motive y) →
    ∀ x ∈ visits k p.nodes, motive x := by
  refine Pattern.forestInduction (fun ps => ∀ k, (∀ y ∈ entries k ps, motive y) →
    (∀ x ∈ visits k (Pattern.nodesOfAll ps), motive x → ∀ y ∈ x.children, motive y) →
    ∀ x ∈ visits k (Pattern.nodesOfAll ps), motive x) ?node ?nil ?cons p
  case node =>
    intro p ih k hp hstep x hx
    rw [visits_nodes] at hx hstep
    rcases List.mem_cons.mp hx with rfl | hx
    · exact hp
    · exact ih _ (hstep _ List.mem_cons_self hp)
        (fun y hy => hstep y (List.mem_cons_of_mem _ hy)) x hx
  case nil =>
    intro k _ _ x hx
    cases hx
  case cons =>
    intro p ps ihp ihps k hroots hstep x hx
    obtain ⟨hp, hps⟩ := List.forall_mem_cons.mp hroots
    rw [Pattern.nodesOfAll, visits_append] at hx hstep
    rcases List.mem_append.mp hx with hx | hx
    · exact ihp k hp (fun y hy => hstep y (List.mem_append_left _ hy)) x hx
    · exact ihps _ hps (fun y hy => hstep y (List.mem_append_right _ hy)) x hx

end CaptureGrammar
