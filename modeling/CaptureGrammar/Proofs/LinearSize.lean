import CaptureGrammar.Proofs.AnnotatedLengths
import CaptureGrammar.Proofs.OpenedGroups
import CaptureGrammar.Proofs.RuleOrder
import Mathlib.Data.List.Perm.Subperm

/-!
What is built from a text is not larger than twice the text, and no counter starts over.

All bounds come from those on the nodes of the tree: a node has one rule at most, takes one number
at most, and is one character at most of an annotated length.
-/
namespace CaptureGrammar

open Grammar (ofPattern)
open Pattern (Parsed openedGroups parse)

variable {root p : Pattern} {ps : List Pattern} {k : Counts} {c d : Category}

/-! ### Rules -/

theorem length_definedNames_le : (definedNames k ps).length ≤ ps.length := by
  induction ps generalizing k with
  | nil => exact Nat.le_refl 0
  | cons p ps ih =>
    have hcons : definedNames k (p :: ps) =
        (Visit.mk k p).defined ++ definedNames (k.pass p) ps := rfl
    have hone : (Visit.mk k p).defined.length ≤ 1 := by
      rw [Visit.defined]
      split <;> simp
    have hrest := ih (k := k.pass p)
    rw [hcons, List.length_append, List.length_cons]
    omega

/-- No node has more than one rule, and the start symbol has one. -/
theorem length_rules_ofPattern_le (root : Pattern) :
    (ofPattern root).rules.length ≤ root.nodes.length + 1 := by
  have hsub : (ofPattern root).rules.map Rule.lhs ⊆ .start :: definedNames {} root.nodes := by
    rw [Grammar.map_lhs_ofPattern]
    exact List.cons_subset_cons _ fun n hn => List.mem_eraseDups.mp hn
  have hle := (List.subperm_of_subset (Grammar.nodup_lhs_ofPattern root) hsub).length_le
  rw [List.length_map, List.length_cons] at hle
  exact Nat.le_trans hle (Nat.succ_le_succ length_definedNames_le)

/-! ### Numbers of nodes -/

/-- The number of a nonterminal that is counted in category `c`. -/
def Nonterminal.number? (c : Category) : Nonterminal → Option UInt32
  | .node d i => if d = c then some i else none
  | .start | .capture _ => none

theorem number?_fresh :
    (k.fresh d).number? c = if d = c then some (k.get c + 1) else none := by
  rw [Counts.fresh, Nonterminal.number?]
  split
  · next h => rw [h, Counts.get_next, if_pos rfl]
  · rfl

/-- While the counter of a category does not start over, the numbers that it gives are those behind
the one from which it starts, without a gap. -/
theorem numbers_allocations
    (h : (k.get c).toNat + ps.countP (·.category? = some c) < UInt32.size) :
    ((allocations k ps).filterMap (Nonterminal.number? c)).map UInt32.toNat =
      List.range' ((k.get c).toNat + 1) (ps.countP (·.category? = some c)) := by
  induction ps generalizing k with
  | nil => rfl
  | cons p ps ih =>
    rw [List.countP_cons] at h ⊢
    rw [allocations_cons, List.filterMap_append, List.map_append]
    by_cases hp : p.category? = some c
    · rw [if_pos (decide_eq_true hp)] at h ⊢
      have hnext : ((k.pass p).get c).toNat = (k.get c).toNat + 1 :=
        Counts.toNat_get_pass hp (by omega)
      have hnumber : (k.get c + 1).toNat = (k.get c).toNat + 1 := by
        rw [← hnext, Counts.get_pass, if_pos hp]
      rw [ih (by omega), hnext, List.range'_succ, hp]
      simp [number?_fresh, hnumber]
    · rw [if_neg (by simpa using hp)] at h ⊢
      have hsame : (k.pass p).get c = k.get c := by rw [Counts.get_pass, if_neg hp]
      have hnone : (p.category?.map k.fresh).toList.filterMap (Nonterminal.number? c) = [] := by
        cases hd : p.category? with
        | none => rfl
        | some d =>
          have hne : d ≠ c := fun hdc => hp (hd.trans (congrArg some hdc))
          simp [number?_fresh, hne]
      rw [hnone, ih (by rwa [hsame]), hsame]
      rfl

/-! ### Texts -/

namespace Pattern

variable {s : String} {r : Parsed}

/-- No annotated length is greater than the number of characters in the whole tree. -/
theorem length?_le_countP {path : List Nat} {a : Annotated} {l : Nat}
    (ha : nodeAt Annotated.children (.ofPattern root) path = some a) (hl : a.length? = some l) :
    l ≤ root.nodes.countP isChar := by
  rw [Annotated.nodeAt_ofPattern, Option.map_eq_some_iff] at ha
  obtain ⟨q, hq, rfl⟩ := ha
  have hmem : q ∈ root.nodes := of_nodeAt hq (self_mem_nodes root) fun p hp c hc =>
    nodes_subset_of_mem hp (mem_nodes_of_mem_children hc)
  rw [Annotated.length?_ofPattern, charCount?] at hl
  split at hl
  · cases hl
  · cases hl
    exact (nodes_sublist_of_mem hmem).countP_le

/-- There are at most as many characters as the text has, and fewer other nodes. -/
theorem nodes_of_parse (h : parse s = .ok r) :
    r.root.nodes.countP isChar ≤ s.length ∧ r.root.nodes.length < 2 * s.length := by
  obtain ⟨hfits, htext, -⟩ := parse_eq_ok.mp h
  obtain ⟨hchars, hothers⟩ := countP_isChar_le r.root hfits.1
  have hsplit := List.length_eq_countP_add_countP isChar (l := r.root.nodes)
  simp only [Bool.not_eq_true, Bool.decide_eq_false] at hsplit
  rw [htext, String.length_toList] at hchars hothers
  omega

/-- A text of `n` characters has at most `2 * n - 1` nodes and `2 * n` rules, and at most `n` groups
and nodes of each category. No annotated length is above `n`. While `n` is below the largest value
of a counter, the groups and the nonterminals of each category have the numbers from 1 on without a
gap, and no counter starts over. -/
theorem size_of_parse (h : parse s = .ok r) :
    r.root.nodes.length ≤ 2 * s.length - 1 ∧ (ofPattern r.root).rules.length ≤ 2 * s.length ∧
    (∀ c, r.root.nodes.countP (·.category? = some c) ≤ s.length) ∧
    r.root.captures.length ≤ s.length ∧
    (∀ path a l, nodeAt Annotated.children (.ofPattern r.root) path = some a →
      a.length? = some l → l ≤ s.length) ∧
    (s.length < UInt32.size - 1 →
      (openedGroups s).map UInt32.toNat = List.range' 1 r.root.captures.length ∧
      r.nextGroupId.toNat = r.root.captures.length + 1 ∧
      r.groupCount.toNat = r.root.captures.length ∧
      ∀ c, ((Builder.ofPattern r.root).allocated.reverse.filterMap (Nonterminal.number? c)).map
          UInt32.toNat = List.range' 1 (r.root.nodes.countP (·.category? = some c)) ∧
        ((Builder.ofPattern r.root).counts.get c).toNat =
          r.root.nodes.countP (·.category? = some c)) := by
  obtain ⟨hchars, hnodes⟩ := nodes_of_parse h
  obtain ⟨hgroups, hcategories⟩ := counts_of_parse h
  have hrules := length_rules_ofPattern_le r.root
  refine ⟨by omega, by omega, hcategories, hgroups, fun path a l ha hl => ?_, fun hn => ?_⟩
  · exact Nat.le_trans (length?_le_countP ha hl) hchars
  refine ⟨?_, ?_, toNat_groupCount h (by omega), fun c => ?_⟩
  · rw [map_toNat_openedGroups (by omega), openedGroups_of_parse h]
  · obtain ⟨-, -, -, -, hnext⟩ := parse_eq_ok.mp h
    rw [hnext, ← UInt32.ofNat_one, ← UInt32.ofNat_add, UInt32.toNat_ofNat_of_lt' (by omega),
      Nat.add_comm]
  · have hzero : (({} : Counts).get c).toNat = 0 := by cases c <;> rfl
    have hfits : (({} : Counts).get c).toNat + r.root.nodes.countP (·.category? = some c) <
        UInt32.size := by
      have hc := hcategories c
      omega
    rw [Builder.reverse_allocated, Builder.counts_ofPattern, numbers_allocations hfits,
      Counts.toNat_get_passAll hfits, hzero]
    simp only [Nat.zero_add, and_self]

/-- Two characters reach both bounds. -/
theorem size_of_parse_two_chars : ∃ r, parse "ab" = .ok r ∧
    r.root.nodes.length = 2 * 2 - 1 ∧ (ofPattern r.root).rules.length = 2 * 2 ∧
    r.groupCount.toNat = 0 ∧ ((Builder.ofPattern r.root).counts.get .char).toNat = 2 := by
  have h : parse "ab" = .ok ⟨.concat [.char 'a', .char 'b'], [.char 'a', .char 'b', .concat], 1⟩ :=
    parse_of_toOption (by with_unfolding_all decide)
  obtain ⟨hnodes, hrules, -, -, -, hnumbers⟩ := size_of_parse h
  obtain ⟨-, -, hgroups, hcounters⟩ := hnumbers (by decide)
  refine ⟨_, h, Nat.le_antisymm hnodes ?_, Nat.le_antisymm hrules ?_, hgroups, (hcounters .char).2⟩
  · decide
  · decide

end Pattern

end CaptureGrammar
