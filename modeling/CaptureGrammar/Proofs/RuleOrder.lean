import CaptureGrammar.Proofs.Productions

/-!
The order of the rules in the grammar of a pattern: the start symbol first, then the nodes as the
walk comes to them.
-/
namespace CaptureGrammar

open Pattern (editsOfAll editsOfBranches)

variable {root p : Pattern} {ps : List Pattern} {k : Counts} {n : Nonterminal} {x : Visit}
  {l l' : List Nonterminal} {es : List (Edit Nonterminal)}

theorem eraseDups_append_congr (h : l.eraseDups = l'.eraseDups) (r : List Nonterminal) :
    (l ++ r).eraseDups = (l' ++ r).eraseDups := by
  have hmem : ∀ a, a ∈ l ↔ a ∈ l' := by
    intro a
    rw [← List.mem_eraseDups, h, List.mem_eraseDups]
  have hrest : r.removeAll l = r.removeAll l' := by
    simp only [List.removeAll, List.elem_eq_contains, List.contains_eq_mem, hmem]
  rw [List.eraseDups_append, List.eraseDups_append, h, hrest]

theorem eraseDups_append_of_subset (h : l' ⊆ l) : (l ++ l').eraseDups = l.eraseDups := by
  have hrest : l'.removeAll l = [] := by
    simp only [List.removeAll, List.filter_eq_nil_iff]
    intro a ha
    simp [h ha]
  rw [List.eraseDups_append, hrest, List.eraseDups_nil, List.append_nil]

/-- The nonterminals that some changes concern, in order. -/
def targets (es : List (Edit Nonterminal)) : List Nonterminal := es.map Edit.target

theorem targets_cons {e : Edit Nonterminal} : targets (e :: es) = e.target :: targets es := rfl

theorem targets_append {fs : List (Edit Nonterminal)} :
    targets (es ++ fs) = targets es ++ targets fs := List.map_append

theorem targets_pushes_subset (h : x.nonterminal ∈ l) : targets x.pushes ⊆ l := by
  intro a ha
  simp only [targets, Visit.pushes, List.map_map, List.mem_map] at ha
  obtain ⟨q, -, rfl⟩ := ha
  exact h

/-- To push the branches one by one adds no rule, as the alternation has one by then. -/
theorem eraseDups_targets_editsOfBranches (h : n ∈ l) :
    (l ++ targets (editsOfBranches n k ps)).eraseDups =
      (l ++ targets (editsOfAll k ps)).eraseDups := by
  induction ps generalizing k l with
  | nil => rfl
  | cons p ps ih =>
    have hn : n ∈ l ++ targets (p.edits k) := List.mem_append_left _ h
    have hpush : (l ++ targets (p.edits k) ++ [n]).eraseDups =
        (l ++ targets (p.edits k)).eraseDups :=
      eraseDups_append_of_subset (List.cons_subset.mpr ⟨hn, List.nil_subset _⟩)
    have hrest := eraseDups_append_congr hpush
      (targets (editsOfBranches n (k.passAll p.nodes) ps))
    rw [ih hn] at hrest
    rw [editsOfBranches, editsOfAll, targets_append, targets_append, targets_cons]
    simpa only [List.append_assoc, List.singleton_append, Edit.target] using hrest

/-- The nonterminal that a node defines. -/
def Visit.defined (x : Visit) : List Nonterminal :=
  if x.node.isReference then [] else [x.nonterminal]

/-- A node is come to before the nodes below it. -/
theorem eraseDups_targets_edits (p : Pattern) (k : Counts) (l : List Nonterminal) :
    (l ++ targets (p.edits k)).eraseDups =
      (l ++ (Visit.mk k p).defined ++ targets (editsOfAll (k.pass p) p.children)).eraseDups := by
  rcases p.edits_cases k with ⟨href, hedits, hchildren⟩ | ⟨ps, rfl⟩ | ⟨href, hedits⟩
  · have hdefined : (Visit.mk k p).defined = [] := by rw [Visit.defined, if_pos href]
    rw [hedits, hchildren, hdefined, List.append_nil]
    rfl
  · have hn : k.fresh .alt ∈ l ++ [k.fresh .alt] := by simp
    have hbranches : (l ++ [k.fresh .alt] ++
        targets (editsOfBranches (k.fresh .alt) (k.next .alt) ps)).eraseDups =
          (l ++ [k.fresh .alt] ++ targets (editsOfAll (k.next .alt) ps)).eraseDups :=
      eraseDups_targets_editsOfBranches hn
    rw [← List.append_cons] at hbranches
    exact hbranches
  · have hdefined : (Visit.mk k p).defined = [p.nonterminal k] := by
      rw [Visit.defined, if_neg (Bool.eq_false_iff.mp href)]
      rfl
    have hpushes : targets (Visit.mk k p).pushes ⊆
        l ++ [p.nonterminal k] ++ targets (editsOfAll (k.pass p) p.children) :=
      targets_pushes_subset (by simp [Visit.nonterminal])
    rw [hedits, hdefined, targets_append, ← eraseDups_append_of_subset hpushes]
    simp [targets, Edit.target]

/-- The nonterminals of nodes in a row that have rules, in order. -/
def definedNames (k : Counts) (ps : List Pattern) : List Nonterminal :=
  (visits k ps).flatMap Visit.defined

theorem mem_definedNames : n ∈ definedNames k ps ↔ Defines k ps n := by
  simp only [definedNames, List.mem_flatMap, Visit.defined, Defines]
  apply exists_congr
  intro x
  cases x.node.isReference <;> simp [eq_comm]

theorem definedNames_nodes : definedNames k p.nodes =
    (Visit.mk k p).defined ++ definedNames (k.pass p) (Pattern.nodesOfAll p.children) := by
  rw [definedNames, visits_nodes]
  rfl

theorem definedNames_append {qs : List Pattern} : definedNames k (ps ++ qs) =
    definedNames k ps ++ definedNames (k.passAll ps) qs := by
  rw [definedNames, visits_append, List.flatMap_append]
  rfl

theorem eraseDups_targets (p : Pattern) : ∀ k l,
    (l ++ targets (p.edits k)).eraseDups = (l ++ definedNames k p.nodes).eraseDups := by
  refine Pattern.forestInduction (fun ps => ∀ k l, (l ++ targets (editsOfAll k ps)).eraseDups =
    (l ++ definedNames k (Pattern.nodesOfAll ps)).eraseDups) ?node ?nil ?cons p
  case node =>
    intro p ih k l
    rw [eraseDups_targets_edits, ih, definedNames_nodes, List.append_assoc]
  case nil =>
    intro k l
    rfl
  case cons =>
    intro p ps ihp ihps k l
    have hfirst := eraseDups_append_congr (ihp k l)
      (definedNames (k.passAll p.nodes) (Pattern.nodesOfAll ps))
    rw [editsOfAll, targets_append, Pattern.nodesOfAll, definedNames_append, ← List.append_assoc,
      ihps, ← List.append_assoc]
    exact hfirst

theorem start_notMem_definedNames : Nonterminal.start ∉ definedNames k ps := by
  rw [mem_definedNames]
  rintro ⟨x, -, -, hx⟩
  exact Pattern.nonterminal_ne_start hx

namespace Grammar

/-- The start symbol has the first rule, and each node that is no reference has one after those of
the nodes that the walk comes to before. -/
theorem map_lhs_ofPattern (root : Pattern) :
    (ofPattern root).rules.map Rule.lhs = .start :: (definedNames {} root.nodes).eraseDups := by
  have hempty : ([] : List (Rule Nonterminal)).map Rule.lhs = List.eraseDups [] := rfl
  have htable : (ofPattern root).rules.map Rule.lhs = (targets root.allEdits).eraseDups := by
    rw [ofPattern, Builder.ofPattern_eq]
    exact Rule.map_lhs_editAll hempty
  have hall : targets root.allEdits =
      [.start] ++ targets (root.edits {}) ++ [Nonterminal.start] := by
    simp [Pattern.allEdits, targets, Edit.target]
  have hlast : [Nonterminal.start] ⊆ [.start] ++ targets (root.edits {}) := by simp
  have hothers : (definedNames {} root.nodes).filter (fun n => !n == Nonterminal.start) =
      definedNames {} root.nodes := by
    rw [List.filter_eq_self]
    intro n hn
    have hne : n ≠ .start := fun hs => start_notMem_definedNames (hs ▸ hn)
    simpa using hne
  rw [htable, hall, eraseDups_append_of_subset hlast, eraseDups_targets root {},
    List.singleton_append, List.eraseDups_cons, hothers]

/-- The start symbol and the nonterminals of the nodes have rules, references apart. -/
theorem mem_lhs_ofPattern : n ∈ (ofPattern p).rules.map Rule.lhs ↔
    n = .start ∨ Defines {} p.nodes n := by
  rw [map_lhs_ofPattern, List.mem_cons, List.mem_eraseDups, mem_definedNames]

theorem exists_visit_of_node_mem_lhs {c : Category} {i : UInt32}
    (h : .node c i ∈ (ofPattern p).rules.map Rule.lhs) :
    ∃ x ∈ visits {} p.nodes, x.nonterminal = .node c i := by
  rcases mem_lhs_ofPattern.mp h with hs | ⟨x, hx, -, hxn⟩
  · cases hs
  · exact ⟨x, hx, hxn⟩

end Grammar

end CaptureGrammar
