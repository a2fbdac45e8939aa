import CaptureGrammar.Annotated.Basic
import CaptureGrammar.Proofs.Address

/-! Annotated patterns as trees, and the order of their nodes from the root down. -/
namespace CaptureGrammar.Annotated

variable {a b : Annotated} {as : List Annotated} {i : Nat} {path path' : List Nat}

mutual

/-- Induction over trees: a node may use the fact for its children. -/
@[elab_as_elim]
theorem childrenInduction {motive : Annotated → Prop}
    (node : ∀ a, (∀ b ∈ a.children, motive b) → motive a) : (a : Annotated) → motive a
  | .concat ps n => node (.concat ps n) (forall_of_children node ps)
  | .alt ps => node (.alt ps) (forall_of_children node ps)
  | .group id p n => node (.group id p n) (List.forall_mem_singleton.mpr (childrenInduction node p))
  | .star p min max =>
    node (.star p min max) (List.forall_mem_singleton.mpr (childrenInduction node p))
  | .char c n => node (.char c n) nofun
  | .exprRef id => node (.exprRef id) nofun
  | .strRef id => node (.strRef id) nofun

theorem forall_of_children {motive : Annotated → Prop}
    (node : ∀ a, (∀ b ∈ a.children, motive b) → motive a) :
    (as : List Annotated) → ∀ a ∈ as, motive a
  | [] => nofun
  | a :: as => List.forall_mem_cons.mpr ⟨childrenInduction node a, forall_of_children node as⟩

end

/-! ### The nodes with their addresses -/

mutual

/-- The nodes of a tree that stands at an address, with their own addresses. Each node comes before
those below it. -/
def places (path : List Nat) : Annotated → List (List Nat × Annotated)
  | .concat ps n => (path, .concat ps n) :: placesFrom path 0 ps
  | .alt ps => (path, .alt ps) :: placesFrom path 0 ps
  | .group id p n => (path, .group id p n) :: places (path ++ [0]) p
  | .star p min max => (path, .star p min max) :: places (path ++ [0]) p
  | .char c n => [(path, .char c n)]
  | .exprRef id => [(path, .exprRef id)]
  | .strRef id => [(path, .strRef id)]

/-- The same for siblings. The first is the child at place `i` of the node at `path`. -/
def placesFrom (path : List Nat) (i : Nat) : List Annotated → List (List Nat × Annotated)
  | [] => []
  | a :: as => places (path ++ [i]) a ++ placesFrom path (i + 1) as

end

theorem places_eq (path : List Nat) (a : Annotated) :
    places path a = (path, a) :: placesFrom path 0 a.children := by
  cases a <;> simp [places, placesFrom, children]

/-- Whether the listing of a tree, wherever the tree stands, has just its nodes. -/
def Placed (a : Annotated) : Prop :=
  ∀ path path' b, (path', b) ∈ places path a ↔
    ∃ below, path' = path ++ below ∧ nodeAt children a below = some b

theorem mem_placesFrom_of (h : ∀ a ∈ as, Placed a) :
    (path', b) ∈ placesFrom path i as ↔ ∃ j below c, path' = path ++ (i + j) :: below ∧
      as[j]? = some c ∧ nodeAt children c below = some b := by
  induction as generalizing i with
  | nil => simp [placesFrom]
  | cons a as ih =>
    obtain ⟨ha, has⟩ := List.forall_mem_cons.mp h
    rw [placesFrom, List.mem_append, ha, ih has]
    constructor
    · rintro (⟨below, rfl, hb⟩ | ⟨j, below, c, rfl, hc, hb⟩)
      · exact ⟨0, below, a, by simp, rfl, hb⟩
      · exact ⟨j + 1, below, c, by rw [Nat.add_assoc, Nat.add_comm 1], hc, hb⟩
    · rintro ⟨_ | j, below, c, rfl, hc, hb⟩
      · cases hc
        exact .inl ⟨below, by simp, hb⟩
      · exact .inr ⟨j, below, c, by rw [Nat.add_assoc, Nat.add_comm 1], hc, hb⟩

theorem placed (a : Annotated) : Placed a := by
  induction a using childrenInduction with
  | node a ih =>
    intro path path' b
    rw [places_eq, List.mem_cons, Prod.mk.injEq, mem_placesFrom_of ih]
    constructor
    · rintro (⟨rfl, rfl⟩ | ⟨j, below, c, rfl, hc, hb⟩)
      · exact ⟨[], (List.append_nil _).symm, rfl⟩
      · exact ⟨j :: below, by rw [Nat.zero_add], nodeAt_cons.mpr ⟨c, hc, hb⟩⟩
    · rintro ⟨_ | ⟨j, below⟩, rfl, hb⟩
      · exact .inl ⟨List.append_nil _, (nodeAt_nil.mp hb).symm⟩
      · obtain ⟨c, hc, hb⟩ := nodeAt_cons.mp hb
        exact .inr ⟨j, below, c, by rw [Nat.zero_add], hc, hb⟩

theorem mem_placesFrom : (path', b) ∈ placesFrom path i as ↔ ∃ j below c,
    path' = path ++ (i + j) :: below ∧ as[j]? = some c ∧ nodeAt children c below = some b :=
  mem_placesFrom_of fun a _ => placed a

/-- The listing of a whole tree has every node at its address. -/
theorem mem_places_nil : (path, b) ∈ places [] a ↔ nodeAt children a path = some b := by
  simpa using placed a [] path b

theorem pairwise_placesFrom_of (h : ∀ a ∈ as, ∀ path, (places path a).Pairwise (·.1 < ·.1)) :
    (placesFrom path i as).Pairwise (·.1 < ·.1) := by
  induction as generalizing i with
  | nil => exact .nil
  | cons a as ih =>
    obtain ⟨ha, has⟩ := List.forall_mem_cons.mp h
    rw [placesFrom, List.pairwise_append]
    refine ⟨ha _, ih has, ?_⟩
    rintro ⟨path', b⟩ hleft ⟨path'', c⟩ hright
    obtain ⟨below, rfl, -⟩ := (placed a _ _ _).mp hleft
    obtain ⟨j, below', d, rfl, -⟩ := mem_placesFrom.mp hright
    rw [List.append_assoc, List.singleton_append]
    exact List.append_left_lt (List.cons_lt_cons_iff.mpr (.inl (by omega)))

/-- The listing is in the order of the addresses as words. -/
theorem pairwise_places (a : Annotated) : ∀ path, (places path a).Pairwise (·.1 < ·.1) := by
  induction a using childrenInduction with
  | node a ih =>
    intro path
    rw [places_eq, List.pairwise_cons]
    refine ⟨?_, pairwise_placesFrom_of ih⟩
    rintro ⟨path', b⟩ hb
    obtain ⟨j, below, c, rfl, -⟩ := mem_placesFrom.mp hb
    calc
      path = path ++ [] := (List.append_nil path).symm
      _ < path ++ (0 + j) :: below := List.append_left_lt (List.nil_lt_cons _ _)

end CaptureGrammar.Annotated
