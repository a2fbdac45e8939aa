import CaptureGrammar.Proofs.AtomReading

/-!
What the closing parentheses of a text end, found by going over the text alone.

Of a text that some tree spells they end the groups and the references of the tree, in the order in
which these are completed.
-/
namespace CaptureGrammar.Pattern

variable {stack : List (Option Nat)} {number : Option Nat} {n : Nat} {c : Char}
  {cs rest : List Char} {p : Pattern} {ps : List Pattern}

/-- What a closing parenthesis ends. A capturing group has the number of its opening parenthesis
among those of capturing groups. -/
inductive Closing where
  | group (number : Option Nat)
  | exprRef (id : GroupId)
  | strRef (id : GroupId)
deriving DecidableEq

/-- The record of what is ended. Records count groups in 32 bits. -/
def Closing.completion : Closing → Completion
  | .group number => .group (number.map .ofNat)
  | .exprRef id => .exprRef id
  | .strRef id => .strRef id

namespace Closing

variable {x : Closing} {id : GroupId}

theorem completion_eq_strRef : x.completion = .strRef id ↔ x = .strRef id := by
  cases x <;> simp [completion]

theorem completion_eq_group :
    x.completion = .group (some id) ↔ ∃ k, x = .group (some k) ∧ .ofNat k = id := by
  cases x with
  | group number => cases number <;> simp [completion]
  | exprRef | strRef => simp [completion]

end Closing

/-- What each closing parenthesis of the text ends, behind a text that has opened `n` capturing
groups. The groups still open are on the stack, latest first. -/
def closings : List (Option Nat) → Nat → List Char → List Closing
  | stack, n, '(' :: '\\' :: c :: ')' :: cs => .strRef (digitValue c) :: closings stack n cs
  | stack, n, '(' :: '?' :: ':' :: cs => closings (none :: stack) n cs
  | stack, n, '(' :: '?' :: c :: ')' :: cs => .exprRef (digitValue c) :: closings stack n cs
  | stack, n, '(' :: cs => closings (some (n + 1) :: stack) (n + 1) cs
  | number :: stack, n, ')' :: cs => .group number :: closings stack n cs
  | stack, n, _ :: cs => closings stack n cs
  | _, _, [] => []

theorem closings_strRef :
    closings stack n ('(' :: '\\' :: c :: ')' :: cs) =
      .strRef (digitValue c) :: closings stack n cs := rfl

theorem closings_bracket :
    closings stack n ('(' :: '?' :: ':' :: cs) = closings (none :: stack) n cs := rfl

theorem closings_close :
    closings (number :: stack) n (')' :: cs) = .group number :: closings stack n cs := rfl

section Equations

-- The other equations hold only where no earlier one applies.
attribute [local simp] closings

theorem closings_exprRef (hc : c.isDigit) :
    closings stack n ('(' :: '?' :: c :: ')' :: cs) =
      .exprRef (digitValue c) :: closings stack n cs := by
  have hcolon : c ≠ ':' := by
    rintro rfl
    cases hc
  simp [hcolon]

theorem closings_capture (h : ∀ c ∈ cs.head?, c ≠ '?' ∧ c ≠ '\\') :
    closings stack n ('(' :: cs) = closings (some (n + 1) :: stack) (n + 1) cs := by
  rw [closings] <;> (intros; simp_all)

theorem closings_other (h : c ∉ ['(', ')']) :
    closings stack n (c :: cs) = closings stack n cs := by
  simp only [List.mem_cons, List.not_mem_nil, not_or] at h
  simp [h]

end Equations

/-! ### The closing parentheses of a tree's text -/

/-- Whether the record is of a node whose text ends with a parenthesis of its own. -/
def inParentheses : Completion → Bool
  | .group _ | .exprRef _ | .strRef _ => true
  | .char _ | .concat | .alt | .star => false

namespace Passage

variable {v w : Passage} {d : Completion}

/-- Whether the closing parentheses of a passage end what is completed in it, inside any groups and
whatever follows, if its groups are numbered on from `n`. -/
def Traced (w : Passage) : Prop :=
  ∀ stack n rest, NumberedFrom (.ofNat (n + 1)) w.opened →
    (closings stack n (w.text ++ rest)).map Closing.completion =
      w.finished.filter inParentheses ++
        (closings stack (n + w.opened.length) rest).map Closing.completion

theorem Traced.append (hv : v.Traced) (hw : w.Traced) : (v ++ w).Traced := by
  intro stack n rest hnum
  simp only [append_def, numberedFrom_append, ← UInt32.ofNat_add] at hnum ⊢
  rw [Nat.add_right_comm] at hnum
  rw [List.append_assoc, hv stack n _ hnum.1, hw stack _ rest hnum.2, List.filter_append,
    List.length_append, List.append_assoc, Nat.add_assoc]

theorem traced_empty : (mk [] [] []).Traced := fun _ _ _ _ => rfl

theorem traced_other (hc : c ∉ ['(', ')']) : (mk [c] [] []).Traced := by
  intro stack n rest _
  exact congrArg (List.map Closing.completion) (closings_other hc)

theorem traced_mark (hd : inParentheses d = false) : (mk [] [] [d]).Traced := by
  intro stack n rest _
  simp [hd]

end Passage

open Passage

theorem traced_passageOfAll (h : ∀ p ∈ ps, p.passage.Traced) : (passageOfAll ps).Traced := by
  induction ps with
  | nil => exact traced_empty
  | cons p ps ih =>
    obtain ⟨hp, hps⟩ := List.forall_mem_cons.mp h
    rw [passageOfAll_cons]
    exact hp.append (ih hps)

theorem traced_passageOfBranches (h : ∀ p ∈ ps, p.passage.Traced) :
    (passageOfBranches ps).Traced := by
  induction ps with
  | nil => exact traced_empty
  | cons p ps ih =>
    obtain ⟨hp, hps⟩ := List.forall_mem_cons.mp h
    cases ps with
    | nil =>
      rw [passageOfBranches_singleton]
      exact hp
    | cons q ps =>
      rw [passageOfBranches_cons]
      exact hp.append ((traced_other (by decide)).append (ih hps))

/-- Inside a group, the text of a tree is followed by the parenthesis that ends the group. -/
theorem map_closings_enclosed (hp : p.passage.Traced)
    (hnum : NumberedFrom (.ofNat (n + 1)) p.captures) :
    (closings (number :: stack) n (p.spelling ++ ')' :: rest)).map Closing.completion =
      p.postorder.filter inParentheses ++ .group (number.map .ofNat) ::
        (closings stack (n + p.captures.length) rest).map Closing.completion := by
  have h := hp (number :: stack) n (')' :: rest) hnum
  rw [closings_close] at h
  exact h

theorem traced_group {id : Option GroupId} (h : (group id p).IsCanonical)
    (hp : p.passage.Traced) : (group id p).passage.Traced := by
  intro stack n rest hnum
  have hdone : (group id p).postorder.filter inParentheses =
      p.postorder.filter inParentheses ++ [.group id] :=
    List.filter_append p.postorder [.group id]
  simp only [passage, captures_group] at hnum ⊢
  rw [hdone, List.append_assoc]
  cases id with
  | none =>
    have htext : (group none p).spelling ++ rest =
        '(' :: '?' :: ':' :: (p.spelling ++ ')' :: rest) := by
      simp [spelling]
    rw [htext, closings_bracket, map_closings_enclosed hp hnum]
    rfl
  | some id =>
    obtain ⟨rfl, hnum⟩ := hnum
    have hnum : NumberedFrom (.ofNat (n + 1 + 1)) p.captures := by
      rw [UInt32.ofNat_add (n + 1)]
      exact hnum
    have htext : (group (some (.ofNat (n + 1))) p).spelling ++ rest =
        '(' :: (p.spelling ++ ')' :: rest) := by
      simp [spelling]
    have hhead : ∀ c ∈ (p.spelling ++ ')' :: rest).head?, c ≠ '?' ∧ c ≠ '\\' := by
      rw [head?_spelling_append h.1]
      exact h.2 rfl
    rw [htext, closings_capture hhead, map_closings_enclosed hp hnum, Nat.add_right_comm n]
    rfl

theorem traced_passage (h : p.IsCanonical) : p.passage.Traced := by
  induction p using childrenInduction with
  | node p ih =>
    cases p with
    | char c =>
      have hc : c ∉ ['(', ')'] := fun hmem => h (List.mem_append_left ['<', '>', '|'] hmem)
      exact (traced_other hc).append (traced_mark rfl)
    | concat ps =>
      rw [passage_concat]
      have hall := allCanonical_iff.mp h.2.1
      exact (traced_passageOfAll fun p hp => ih p hp (hall p hp)).append (traced_mark rfl)
    | alt ps =>
      rw [passage_alt]
      have hall := allCanonical_iff.mp h.2.1
      exact (traced_passageOfBranches fun p hp => ih p hp (hall p hp)).append (traced_mark rfl)
    | group id p => exact traced_group h (ih p (List.mem_singleton_self p) h.1)
    | star p min max =>
      have hp := ih p (List.mem_singleton_self p) h.1
      have hend : (mk ['>'] [] [.star]).Traced :=
        (traced_other (by decide)).append (traced_mark rfl)
      rw [passage_star]
      exact (traced_other (by decide)).append (hp.append hend)
    | exprRef id =>
      obtain ⟨c, hc, rfl⟩ := exists_digit h
      intro stack n rest _
      simp [passage_exprRef hc, append_def, closings_exprRef hc, Closing.completion,
        List.filter_cons, inParentheses]
    | strRef id =>
      obtain ⟨c, hc, rfl⟩ := exists_digit h
      intro stack n rest _
      simp [passage_strRef hc, append_def, closings_strRef, Closing.completion,
        List.filter_cons, inParentheses]

end CaptureGrammar.Pattern
