import CaptureGrammar.Grammar.Nonterminal
import CaptureGrammar.Proofs.UniqueReading

/-! Nonterminals are told apart by their names. -/
namespace CaptureGrammar

namespace Nonterminal

variable {a b : Nonterminal} {m n : UInt32} {u v : List Char}

def nameChars (a : Nonterminal) : List Char := a.name.toList

@[simp] theorem nameChars_start : nameChars .start = ['S'] := rfl

@[simp] theorem nameChars_node {c : Category} :
    (node c n).nameChars = c.stem.toList ++ (toString n).toList := String.toList_append

@[simp] theorem nameChars_capture {id : GroupId} :
    (capture id).nameChars = 'G' :: (toString id).toList := String.toList_append

theorem exists_nameChars_eq_cons (a : Nonterminal) :
    ∃ c cs, a.nameChars = c :: cs ∧ c.isAlpha := by
  cases a with
  | start => exact ⟨_, _, nameChars_start, rfl⟩
  | node c n =>
    rw [nameChars_node]
    cases c <;> exact ⟨_, _, rfl, rfl⟩
  | capture id => exact ⟨_, _, nameChars_capture, rfl⟩

/-- A name begins with a letter. -/
theorem nameChars_append_ne {c : Char} (hc : c.isAlpha = false) : a.nameChars ++ u ≠ c :: v := by
  obtain ⟨d, ds, ha, hd⟩ := exists_nameChars_eq_cons a
  rw [ha]
  intro h
  rw [(List.cons.inj h).1, hc] at hd
  cases hd

/-- No stem goes on like another one with a number behind it. -/
theorem stem_eq_of_append_digits {c d : Category}
    (h : c.stem.toList ++ ((toString m).toList ++ u) =
      d.stem.toList ++ ((toString n).toList ++ v)) : c = d := by
  have hh : 'h'.isDigit = false := rfl
  cases c <;> cases d <;>
    simp [Category.stem, cons_ne_number hh, Ne.symm (cons_ne_number hh)] at h ⊢

theorem readable_name (a : Nonterminal) : Readable Stops nameChars a := by
  intro b u v hu hv h
  cases a with
  | start =>
    cases b with
    | start => exact ⟨rfl, List.append_cancel_left h⟩
    | node d n => cases d <;> simp [Category.stem] at h
    | capture j => simp at h
  | node c m =>
    cases b with
    | start => cases c <;> simp [Category.stem] at h
    | node d n =>
      simp only [nameChars_node, List.append_assoc] at h
      have hcd := stem_eq_of_append_digits h
      subst hcd
      obtain ⟨rfl, huv⟩ := readable_number m hu hv (List.append_cancel_left h)
      exact ⟨rfl, huv⟩
    | capture j => cases c <;> simp [Category.stem] at h
  | capture i =>
    cases b with
    | start => simp at h
    | node d n => cases d <;> simp [Category.stem] at h
    | capture j =>
      simp only [nameChars_capture, List.cons_append, List.cons.injEq, true_and] at h
      obtain ⟨rfl, huv⟩ := readable_number i hu hv h
      exact ⟨rfl, huv⟩

theorem name_injective (h : a.name = b.name) : a = b := by
  have happend : a.nameChars ++ [] = b.nameChars ++ [] := by rw [nameChars, nameChars, h]
  exact (readable_name a stops_nil stops_nil happend).1

end Nonterminal

end CaptureGrammar
