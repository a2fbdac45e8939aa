import CaptureGrammar.Pattern.Nodes

/-! Patterns as trees whose nodes have any number of children. -/
namespace CaptureGrammar.Pattern

variable {p q : Pattern} {ps qs : List Pattern}

/-- The patterns directly below a node, in order. -/
def children : Pattern → List Pattern
  | .concat ps | .alt ps => ps
  | .group _ p | .star p _ _ => [p]
  | .char _ | .exprRef _ | .strRef _ => []

/-- The number of a capturing group. -/
def captureId? : Pattern → Option GroupId
  | .group (some id) _ => some id
  | _ => none

theorem captureId?_eq_some_iff {id : GroupId} :
    p.captureId? = some id ↔ ∃ q, p = .group (some id) q := by
  cases p with
  | group i q => cases i <;> simp [captureId?]
  | _ => simp [captureId?]

theorem sizeOf_lt_of_mem_children (h : q ∈ p.children) : sizeOf q < sizeOf p := by
  cases p with
  | concat ps =>
    have hlt : sizeOf q < sizeOf ps := List.sizeOf_lt_of_mem h
    simp only [concat.sizeOf_spec]
    omega
  | alt ps =>
    have hlt : sizeOf q < sizeOf ps := List.sizeOf_lt_of_mem h
    simp only [alt.sizeOf_spec]
    omega
  | group id p =>
    cases List.mem_singleton.mp h
    simp only [group.sizeOf_spec]
    omega
  | star p min max =>
    cases List.mem_singleton.mp h
    simp only [star.sizeOf_spec]
    omega
  | char | exprRef | strRef => cases h

/-- Induction over trees: a node may use the fact for its children. -/
@[elab_as_elim]
theorem childrenInduction {motive : Pattern → Prop}
    (node : ∀ p, (∀ q ∈ p.children, motive q) → motive p) (p : Pattern) : motive p :=
  node p fun q _ => childrenInduction node q
termination_by sizeOf p
decreasing_by exact sizeOf_lt_of_mem_children ‹_›

/-- Induction over trees, with a fact for the lists of their children beside it. -/
@[elab_as_elim]
theorem forestInduction {motive : Pattern → Prop} (motives : List Pattern → Prop)
    (node : ∀ p, motives p.children → motive p) (nil : motives [])
    (cons : ∀ p ps, motive p → motives ps → motives (p :: ps)) (p : Pattern) : motive p := by
  induction p using childrenInduction with
  | node p ih =>
    have hall : ∀ ps, (∀ q ∈ ps, motive q) → motives ps := by
      intro ps
      induction ps with
      | nil =>
        intro _
        exact nil
      | cons q ps ihps =>
        intro h
        exact cons q ps (h q List.mem_cons_self) (ihps fun c hc => h c (List.mem_cons_of_mem _ hc))
    exact node p (hall p.children ih)

theorem nodes_eq (p : Pattern) : p.nodes = p :: nodesOfAll p.children := by
  cases p <;> simp [nodes, nodesOfAll, children]

theorem postorder_eq (p : Pattern) :
    p.postorder = postorderOfAll p.children ++ [p.completion] := by
  cases p <;> simp [postorder, postorderOfAll, children, completion]

theorem nodesOfAll_eq (ps : List Pattern) : nodesOfAll ps = ps.flatMap nodes := by
  induction ps with
  | nil => rfl
  | cons p ps ih => rw [nodesOfAll, ih, List.flatMap_cons]

theorem mem_nodesOfAll : q ∈ nodesOfAll ps ↔ ∃ p ∈ ps, q ∈ p.nodes := by
  rw [nodesOfAll_eq, List.mem_flatMap]

theorem mem_nodes_iff : q ∈ p.nodes ↔ q = p ∨ ∃ c ∈ p.children, q ∈ c.nodes := by
  rw [nodes_eq, List.mem_cons, mem_nodesOfAll]

theorem self_mem_nodes (p : Pattern) : p ∈ p.nodes := mem_nodes_iff.mpr (.inl rfl)

theorem mem_nodes_of_mem_children (h : q ∈ p.children) : q ∈ p.nodes :=
  mem_nodes_iff.mpr (.inr ⟨q, h, self_mem_nodes q⟩)

/-- The nodes of a node are nodes of the whole, in the same order. -/
theorem nodes_sublist_of_mem (h : q ∈ p.nodes) : q.nodes.Sublist p.nodes := by
  induction p using childrenInduction with
  | node p ih =>
    rcases mem_nodes_iff.mp h with rfl | ⟨c, hc, hq⟩
    · exact List.Sublist.refl _
    · have hbelow : c.nodes.Sublist (nodesOfAll p.children) := by
        rw [nodesOfAll_eq, List.flatMap_def]
        exact List.sublist_flatten_of_mem (List.mem_map_of_mem hc)
      rw [nodes_eq p]
      exact ((ih c hc hq).trans hbelow).cons p

theorem nodes_subset_of_mem (h : q ∈ p.nodes) : q.nodes ⊆ p.nodes := (nodes_sublist_of_mem h).subset

end CaptureGrammar.Pattern
