import CaptureGrammar.Proofs.CompletionOrder

/-!
The check on the order of references over records in any order, such as no text need lead to.

The scan goes over the records once, remembers the groups that were referred to and breaks off at
the first group among them. It comes to a matter of pairs of records, and so it can be made of parts
of the records and of what they have to do with each other.
-/
namespace CaptureGrammar

variable {xs ys : List Completion} {seen : List GroupId}

theorem pair_sublist_iff_getElem? {α : Type} {a b : α} {l : List α} :
    [a, b].Sublist l ↔ ∃ i j : Nat, i < j ∧ l[i]? = some a ∧ l[j]? = some b := by
  induction l with
  | nil => simp
  | cons c l ih =>
    constructor
    · intro h
      rcases List.sublist_cons_iff.mp h with h | ⟨r, hr, h⟩
      · obtain ⟨i, j, hij, hi, hj⟩ := ih.mp h
        exact ⟨i + 1, j + 1, by omega, by simpa using hi, by simpa using hj⟩
      · cases hr
        obtain ⟨j, hj⟩ := List.mem_iff_getElem?.mp (List.singleton_sublist.mp h)
        exact ⟨0, j + 1, by omega, rfl, by simpa using hj⟩
    · rintro ⟨i, j, hij, hi, hj⟩
      obtain ⟨j, rfl⟩ : ∃ k, j = k + 1 := ⟨j - 1, by omega⟩
      rw [List.getElem?_cons_succ] at hj
      cases i with
      | zero =>
        obtain rfl : c = a := by simpa using hi
        exact (List.singleton_sublist.mpr (List.mem_of_getElem? hj)).cons_cons c
      | succ i =>
        rw [List.getElem?_cons_succ] at hi
        exact (ih.mpr ⟨i, j, by omega, hi, hj⟩).cons c

theorem inReferenceOrder_iff : inReferenceOrder seen xs = true ↔
    (∀ id ∈ seen, .group (some id) ∉ xs) ∧ ∀ id, ¬ [.strRef id, .group (some id)].Sublist xs := by
  rw [← Bool.not_eq_false, inReferenceOrder_eq_false_iff]
  simp

/-- The scan goes over into `ys` with the groups that `xs` refers to. -/
theorem inReferenceOrder_append : inReferenceOrder [] (xs ++ ys) = true ↔
    inReferenceOrder [] xs = true ∧ inReferenceOrder [] ys = true ∧
      ∀ id, .strRef id ∈ xs → .group (some id) ∉ ys := by
  simp only [inReferenceOrder_iff, pair_sublist_append]
  grind

theorem inReferenceOrder_singleton (c : Completion) : inReferenceOrder [] [c] = true := by
  rw [inReferenceOrder_iff]
  refine ⟨by simp, fun id h => ?_⟩
  have hle := h.length_le
  simp at hle

/-- The verdict on all records follows from how verdicts on parts go together. -/
theorem eq_inReferenceOrder {f : List Completion → Bool} (hnil : f [] = true)
    (hone : ∀ c, f [c] = true)
    (happend : ∀ xs ys, f (xs ++ ys) = true ↔
      f xs = true ∧ f ys = true ∧ ∀ id, .strRef id ∈ xs → .group (some id) ∉ ys)
    (cs : List Completion) : f cs = inReferenceOrder [] cs := by
  induction cs with
  | nil => rw [hnil, inReferenceOrder]
  | cons c cs ih =>
    rw [← List.singleton_append, Bool.eq_iff_iff, happend, inReferenceOrder_append, ih, hone,
      inReferenceOrder_singleton]

/-- The check fails on just the records in which a group comes after a reference to its text. It can
be made on parts in a row: they have to pass it, and no earlier part may refer to a group of a later
one. No other verdict that passes single records can be made so. -/
theorem inReferenceOrder_pairs :
    (∀ cs, inReferenceOrder [] cs = false ↔ ∃ (i j : Nat) (id : GroupId),
      i < j ∧ cs[i]? = some (.strRef id) ∧ cs[j]? = some (.group (some id))) ∧
    (∀ xs ys, inReferenceOrder [] (xs ++ ys) = true ↔
      inReferenceOrder [] xs = true ∧ inReferenceOrder [] ys = true ∧
        ∀ id, .strRef id ∈ xs → .group (some id) ∉ ys) ∧
    ∀ f : List Completion → Bool, f [] = true → (∀ c, f [c] = true) →
      (∀ xs ys, f (xs ++ ys) = true ↔
        f xs = true ∧ f ys = true ∧ ∀ id, .strRef id ∈ xs → .group (some id) ∉ ys) →
      ∀ cs, f cs = inReferenceOrder [] cs := by
  refine ⟨fun cs => ?_, fun xs ys => inReferenceOrder_append, fun f => eq_inReferenceOrder⟩
  simp only [inReferenceOrder_eq_false_iff, pair_sublist_iff_getElem?, List.not_mem_nil,
    false_and, exists_false, false_or]
  constructor
  · rintro ⟨id, i, j, h⟩
    exact ⟨i, j, id, h⟩
  · rintro ⟨i, j, id, h⟩
    exact ⟨id, i, j, h⟩

end CaptureGrammar
