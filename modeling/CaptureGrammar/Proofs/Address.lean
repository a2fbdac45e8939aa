/-! The nodes of a tree by their addresses. -/
namespace CaptureGrammar

variable {α β : Type} {children : α → List α} {a b : α} {i j : Nat} {path path' : List Nat}

/-- The node at an address below `a`, for trees with the given children. An address names the
children on the way down by their places. -/
def nodeAt (children : α → List α) : α → List Nat → Option α
  | a, [] => some a
  | a, i :: path => (children a)[i]?.bind fun c => nodeAt children c path

theorem nodeAt_nil : nodeAt children a [] = some b ↔ a = b := Option.some_inj

theorem nodeAt_cons : nodeAt children a (i :: path) = some b ↔
    ∃ c, (children a)[i]? = some c ∧ nodeAt children c path = some b :=
  Option.bind_eq_some_iff

theorem nodeAt_snoc (h : nodeAt children a path = some b) :
    nodeAt children a (path ++ [i]) = (children b)[i]? := by
  induction path generalizing a with
  | nil =>
    cases h
    exact Option.bind_fun_some _
  | cons j path ih =>
    obtain ⟨c, hc, h⟩ := nodeAt_cons.mp h
    change (children a)[j]?.bind (nodeAt children · (path ++ [i])) = _
    rw [hc]
    exact ih h

/-- What children take over from their parent holds of every node below one of which it holds. -/
theorem of_nodeAt {motive : α → Prop} (h : nodeAt children a path = some b) (ha : motive a)
    (hstep : ∀ a, motive a → ∀ c ∈ children a, motive c) : motive b := by
  induction path generalizing a with
  | nil => exact nodeAt_nil.mp h ▸ ha
  | cons i path ih =>
    obtain ⟨c, hc, h⟩ := nodeAt_cons.mp h
    exact ih h (hstep a ha c (List.mem_of_getElem? hc))

/-- A map that takes children to children takes nodes to the nodes at the same addresses. -/
theorem nodeAt_map {children' : β → List β} {f : α → β}
    (hf : ∀ a, children' (f a) = (children a).map f) (a : α) (path : List Nat) :
    nodeAt children' (f a) path = (nodeAt children a path).map f := by
  induction path generalizing a with
  | nil => rfl
  | cons i path ih =>
    change (children' (f a))[i]?.bind (nodeAt children' · path) =
      ((children a)[i]?.bind (nodeAt children · path)).map f
    rw [hf, List.getElem?_map]
    cases (children a)[i]? with
    | none => rfl
    | some c => exact ih c

/-! ### Left and right, inside and outside -/

/-- Whether the way to the first address goes to an earlier child where the ways part. -/
def LeftOf (path path' : List Nat) : Prop :=
  ∃ way i j, i < j ∧ way ++ [i] <+: path ∧ way ++ [j] <+: path'

theorem not_leftOf_nil : ¬ LeftOf path [] := by
  rintro ⟨way, i, j, -, -, h⟩
  simp at h

theorem not_nil_leftOf : ¬ LeftOf [] path := by
  rintro ⟨way, i, j, -, h, -⟩
  simp at h

theorem leftOf_cons : LeftOf (i :: path) (j :: path') ↔ i < j ∨ i = j ∧ LeftOf path path' := by
  constructor
  · rintro ⟨way, k, l, hlt, hi, hj⟩
    cases way with
    | nil =>
      rw [List.nil_append, List.cons_prefix_cons] at hi hj
      exact .inl (hi.1 ▸ hj.1 ▸ hlt)
    | cons m way =>
      rw [List.cons_append, List.cons_prefix_cons] at hi hj
      exact .inr ⟨hi.1.symm.trans hj.1, way, k, l, hlt, hi.2, hj.2⟩
  · rintro (hlt | ⟨rfl, way, k, l, hlt, hi, hj⟩)
    · exact ⟨[], i, j, hlt, by simp, by simp⟩
    · exact ⟨i :: way, k, l, hlt, by simpa using hi, by simpa using hj⟩

/-- Whether the node at the first address is completed before the one at the second: it is inside it
or left of it. -/
def CompletedBefore (path path' : List Nat) : Prop :=
  (path' <+: path ∧ path ≠ path') ∨ LeftOf path path'

theorem completedBefore_nil : CompletedBefore path [] ↔ path ≠ [] := by
  simp [CompletedBefore, not_leftOf_nil]

theorem not_nil_completedBefore : ¬ CompletedBefore [] path := by
  simp [CompletedBefore, not_nil_leftOf, eq_comm]

theorem completedBefore_cons : CompletedBefore (i :: path) (j :: path') ↔
    i < j ∨ i = j ∧ CompletedBefore path path' := by
  simp only [CompletedBefore, leftOf_cons, List.cons_prefix_cons, ne_eq, List.cons.injEq]
  grind

/-- A node right of another is neither inside it nor left of it. -/
theorem not_completedBefore_of_leftOf (h : LeftOf path' path) : ¬ CompletedBefore path path' := by
  induction path generalizing path' with
  | nil => exact not_nil_completedBefore
  | cons i path ih =>
    cases path' with
    | nil => exact (not_nil_leftOf h).elim
    | cons j path' =>
      rw [leftOf_cons] at h
      rw [completedBefore_cons]
      rintro (hlt | ⟨rfl, hbefore⟩)
      · rcases h with hgt | ⟨rfl, -⟩ <;> omega
      · rcases h with hgt | ⟨-, h⟩
        · omega
        · exact ih h hbefore

end CaptureGrammar
