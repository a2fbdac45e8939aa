import CaptureGrammar.Proofs.GroupNumbers

/-!
The numbers of the groups that reading opens, whether it succeeds or fails.

Every reader leaves the groups numbered from 1 in the order in which they were opened, and opens no
more of them than it takes characters.
-/
namespace CaptureGrammar.Pattern

variable {α : Type} {n k : Nat} {s t : Cursor} {rest : List Char} {p : Pattern}
  {r : Reader Pattern} {body : Body} {sigil close : Char} {refer : GroupId → Pattern}
  {e unclosed : Error} {id : Option GroupId} {d : Completion} {text : String}

/-- What holds of a cursor in a text of `n` characters. -/
structure Cursor.Numbered (n : Nat) (s : Cursor) : Prop where
  opened : NumberedFrom 1 s.opened.reverse
  nextId : s.nextId = 1 + .ofNat s.opened.length
  length_le : s.opened.length + s.rest.length ≤ n

namespace Cursor.Numbered

theorem take (h : s.Numbered n) (hr : rest.length ≤ s.rest.length) :
    Numbered n { s with rest } :=
  ⟨h.opened, h.nextId, Nat.le_trans (Nat.add_le_add_left hr _) h.length_le⟩

theorem finish (h : s.Numbered n) : Numbered n { s with finished := d :: s.finished } :=
  ⟨h.opened, h.nextId, h.length_le⟩

/-- The parenthesis that opens a group is one of the characters that are taken. -/
theorem openGroup (h : s.Numbered n) (hr : rest.length < s.rest.length) :
    Numbered n { s with rest, nextId := s.nextId + 1, opened := s.nextId :: s.opened } where
  opened := by
    rw [List.reverse_cons, numberedFrom_append, List.length_reverse]
    exact ⟨h.opened, h.nextId, trivial⟩
  nextId := by
    rw [h.nextId, List.length_cons, UInt32.ofNat_add, UInt32.add_assoc]
    rfl
  length_le := by
    have hle := h.length_le
    simp only [List.length_cons]
    omega

end Cursor.Numbered

/-- The cursor that reading leaves. -/
def stop : EStateM.Result Error Cursor α → Cursor
  | .ok _ t | .error _ t => t

/-- Whether a reader keeps the groups numbered, also where it fails. -/
def Reader.Numbers (r : Reader α) : Prop := ∀ ⦃n s⦄, s.Numbered n → (stop (r s)).Numbered n

theorem Reader.Numbers.ok {r : Reader α} {a : α} (hr : r.Numbers) (h : s.Numbered n)
    (hs : r s = .ok a t) : t.Numbered n := by
  have hstop := hr h
  rwa [hs] at hstop

theorem Reader.Numbers.error {r : Reader α} (hr : r.Numbers) (h : s.Numbered n)
    (hs : r s = .error e t) : t.Numbered n := by
  have hstop := hr h
  rwa [hs] at hstop

theorem finish_numbers : (finish p).Numbers := fun _ _ h => h.finish

theorem reference_numbers : (reference sigil refer).Numbers := by
  intro n s h
  unfold reference
  split
  · exact h
  · next c rest hs =>
    split
    · split
      · exact finish_numbers (h.take (by simp only [hs, List.length_cons]; omega))
      · exact h
    · exact h

theorem enclosed_numbers (hr : r.Numbers) : (enclosed r close unclosed).Numbers := by
  intro n s h
  unfold enclosed
  split
  · next hs => exact hr.error h hs
  · next t hs =>
    split
    · exact hr.ok h hs
    · next ht =>
      split
      · exact (hr.ok h hs).take (by simp [ht])
      · exact hr.ok h hs

theorem groupBody_numbers (hr : r.Numbers) : (groupBody r id).Numbers := by
  intro n s h
  simp only [groupBody, bind, EStateM.bind]
  split
  · next hs => exact finish_numbers ((enclosed_numbers hr).ok h hs)
  · next hs => exact (enclosed_numbers hr).error h hs

theorem starBody_numbers (hr : r.Numbers) : (starBody r).Numbers := by
  intro n s h
  simp only [starBody, bind, EStateM.bind]
  split
  · next hs => exact finish_numbers ((enclosed_numbers hr).ok h hs)
  · next hs => exact (enclosed_numbers hr).error h hs

theorem atom_numbers (hr : r.Numbers) : (atom r).Numbers := by
  intro n s h
  unfold atom
  split <;> rename_i hs
  · exact h
  · exact reference_numbers (h.take (by simp only [hs, List.length_cons]; omega))
  · exact groupBody_numbers hr (h.take (by simp only [hs, List.length_cons]; omega))
  · exact reference_numbers (h.take (by simp only [hs, List.length_cons]; omega))
  · exact groupBody_numbers hr (h.openGroup (by simp [hs]))
  · exact starBody_numbers hr (h.take (by simp [hs]))
  · exact finish_numbers (h.take (by simp [hs]))

theorem atoms_numbers (hr : body.read.Numbers) : Reader.Numbers (atoms body) := by
  intro n s h
  fun_induction atoms body s with
  | case1 => exact h
  | case2 s _ e t ht => exact (atom_numbers hr).error h ht
  | case3 s _ p t ht e u hu ih =>
    rw [hu] at ih
    exact ih ((atom_numbers hr).ok h ht)
  | case4 s _ p t ht ps u hu ih =>
    rw [hu] at ih
    exact ih ((atom_numbers hr).ok h ht)

theorem sequence_numbers (hr : body.read.Numbers) : (sequence body).Numbers := by
  intro n s h
  unfold sequence
  split <;> rename_i hs
  · exact (atoms_numbers hr).error h hs
  · exact (atoms_numbers hr).ok h hs
  · exact (atoms_numbers hr).ok h hs
  · exact finish_numbers ((atoms_numbers hr).ok h hs)

theorem branches_numbers (hr : body.read.Numbers) : Reader.Numbers (branches body) := by
  intro n s h
  fun_induction branches body s with
  | case1 s e t ht => exact (sequence_numbers hr).error h ht
  | case2 s p t ht rest hbar e u hu ih =>
    rw [hu] at ih
    exact ih (((sequence_numbers hr).ok h ht).take (by simp [hbar]))
  | case3 s p t ht rest hbar ps u hu ih =>
    rw [hu] at ih
    exact ih (((sequence_numbers hr).ok h ht).take (by simp [hbar]))
  | case4 s p t ht => exact (sequence_numbers hr).ok h ht

theorem expression_numbers (hr : body.read.Numbers) : (expression body).Numbers := by
  intro n s h
  unfold expression
  split <;> rename_i hs
  · exact (branches_numbers hr).error h hs
  · exact (branches_numbers hr).ok h hs
  · exact finish_numbers ((branches_numbers hr).ok h hs)

theorem interior_numbers (k : Nat) : (interior k).read.Numbers := by
  induction k with
  | zero => exact fun _ _ h => h
  | succ k ih => exact expression_numbers ih

theorem readAll_numbered (cs : List Char) : (stop (readAll cs)).Numbered cs.length := by
  have hstart : Cursor.Numbered cs.length { rest := cs } :=
    ⟨trivial, rfl, by simp⟩
  have hread := expression_numbers (interior_numbers maxNesting)
  unfold readAll
  split
  · next hs => exact hread.error hstart hs
  · next hs =>
    split
    · exact hread.ok hstart hs
    · exact hread.ok hstart hs

theorem openedGroups_eq (text : String) :
    openedGroups text = (stop (readAll text.toList)).opened.reverse := by
  unfold openedGroups
  cases readAll text.toList <;> rfl

theorem length_openedGroups_le (text : String) : (openedGroups text).length ≤ text.length := by
  have hle := (readAll_numbered text.toList).length_le
  rw [String.length_toList] at hle
  rw [openedGroups_eq, List.length_reverse]
  exact Nat.le_of_add_right_le hle

/-- The groups that reading opens have the numbers from 1 on, also where it fails later. -/
theorem map_toNat_openedGroups (hn : text.length < UInt32.size) :
    (openedGroups text).map UInt32.toNat = List.range' 1 (openedGroups text).length := by
  have hle := length_openedGroups_le text
  have hnum : NumberedFrom 1 (openedGroups text) :=
    openedGroups_eq text ▸ (readAll_numbered text.toList).opened
  exact range_of_numberedFrom hnum (by rw [UInt32.toNat_one]; omega)

/-- Where reading succeeds, the groups that it opens are those of the tree. -/
theorem openedGroups_of_parse {t : Parsed} (h : parse text = .ok t) :
    openedGroups text = t.root.captures := by
  simp only [parse] at h
  split at h
  · next hread =>
    cases h
    obtain ⟨-, hlead, -⟩ := readAll_eq_ok.mp hread
    rw [openedGroups_eq, hread, stop, hlead.opened, List.append_nil, List.reverse_reverse]
    rfl
  · cases h

end CaptureGrammar.Pattern
