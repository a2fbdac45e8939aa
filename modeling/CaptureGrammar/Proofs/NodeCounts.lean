import CaptureGrammar.Proofs.RoundTrip
import CaptureGrammar.Proofs.Numbering

/-!
How many nodes a text can spell.

Each character and each bracket is in the text, and there are fewer branchings than leaves, as each
has two branches or more.
-/
namespace CaptureGrammar.Pattern

variable {s : String} {r : Parsed} {p q : Pattern} {ps : List Pattern} {f : Pattern → Bool}

def isChar : Pattern → Bool
  | .char _ => true
  | _ => false

theorem length_spellingOfAll_le : (spellingOfAll ps).length ≤ (spellingOfBranches ps).length := by
  induction ps with
  | nil => exact Nat.le_refl _
  | cons p ps ih =>
    cases ps with
    | nil => simp [spellingOfAll, spellingOfBranches]
    | cons q ps =>
      rw [spellingOfAll, spellingOfBranches, List.length_append, List.length_append,
        List.length_cons]
      omega

/-- A tree that text spells has at most as many characters as its text, and fewer other nodes. -/
theorem countP_isChar_le (p : Pattern) : p.IsCanonical →
    p.nodes.countP isChar ≤ p.spelling.length ∧
      p.nodes.countP (!·.isChar) < p.spelling.length := by
  refine forestInduction (fun ps => (∀ p ∈ ps, p.IsCanonical) →
    (nodesOfAll ps).countP isChar ≤ (spellingOfAll ps).length ∧
      (nodesOfAll ps).countP (!·.isChar) + ps.length ≤ (spellingOfAll ps).length)
    ?node ?nil ?cons p
  case node =>
    intro p ih h
    obtain ⟨hchars, hothers⟩ := ih fun q hq => h.of_mem_children hq
    rw [nodes_eq, List.countP_cons, List.countP_cons]
    cases p with
    | char c => simp [isChar, spelling, children, nodesOfAll]
    | exprRef id | strRef id =>
      simp [isChar, spelling, children, nodesOfAll]
    | concat ps =>
      have hlen : 2 ≤ ps.length := h.1
      simp only [children, isChar, spelling] at hchars hothers ⊢
      simp only [Bool.false_eq_true, if_false, Bool.not_false, if_true]
      omega
    | alt ps =>
      have hlen : 2 ≤ ps.length := h.1
      have hbars : (spellingOfAll ps).length ≤ (spellingOfBranches ps).length :=
        length_spellingOfAll_le
      simp only [children, isChar, spelling] at hchars hothers ⊢
      simp only [Bool.false_eq_true, if_false, Bool.not_false, if_true]
      omega
    | group id p =>
      cases id <;>
        simp [children, isChar, spelling, spellingOfAll] at hchars hothers ⊢ <;> omega
    | star p min max =>
      simp [children, isChar, spelling, spellingOfAll] at hchars hothers ⊢
      omega
  case nil =>
    intro _
    exact ⟨Nat.le_refl _, Nat.le_refl _⟩
  case cons =>
    intro p ps ihp ihps h
    obtain ⟨hp, hps⟩ := List.forall_mem_cons.mp h
    obtain ⟨hchars, hothers⟩ := ihp hp
    obtain ⟨hcharss, hotherss⟩ := ihps hps
    rw [nodesOfAll, spellingOfAll, List.countP_append, List.countP_append, List.length_append,
      List.length_cons]
    omega

/-- Nodes of one kind are all characters, or none of them is. -/
theorem countP_le_spelling (h : p.IsCanonical)
    (hf : (∀ q, f q = true → q.isChar = true) ∨ ∀ q, f q = true → q.isChar = false) :
    p.nodes.countP f ≤ p.spelling.length := by
  obtain ⟨hchars, hothers⟩ := p.countP_isChar_le h
  rcases hf with hf | hf
  · exact Nat.le_trans (List.countP_mono_left fun q _ => hf q) hchars
  · have hmono : p.nodes.countP f ≤ p.nodes.countP (!·.isChar) :=
      List.countP_mono_left fun q _ hq => by rw [hf q hq]; rfl
    omega

theorem countP_category_le (h : p.IsCanonical) (c : Category) :
    p.nodes.countP (·.category? = some c) ≤ p.spelling.length := by
  refine countP_le_spelling h ?_
  by_cases hc : c = .char
  · refine .inl fun q hq => ?_
    have hq := (of_decide_eq_true hq).trans (congrArg some hc)
    cases q with
    | group id q => cases id <;> cases hq
    | char => rfl
    | _ => cases hq
  · refine .inr fun q hq => ?_
    cases q with
    | char => exact absurd (Option.some.inj (of_decide_eq_true hq)).symm hc
    | _ => rfl

theorem length_captures_le (h : p.IsCanonical) : p.captures.length ≤ p.spelling.length := by
  have hcount : p.captures.length = p.nodes.countP fun q => q.captureId?.isSome :=
    List.length_filterMap_eq_countP
  rw [hcount]
  refine countP_le_spelling h (.inr fun q hq => ?_)
  obtain ⟨id, hid⟩ := Option.isSome_iff_exists.mp hq
  obtain ⟨q', rfl⟩ := captureId?_eq_some_iff.mp hid
  rfl

/-- A text has no more groups, and no more nodes of a category, than it has characters. -/
theorem counts_of_parse (h : parse s = .ok r) : r.root.captures.length ≤ s.length ∧
    ∀ c, r.root.nodes.countP (·.category? = some c) ≤ s.length := by
  obtain ⟨hfits, htext, -⟩ := parse_eq_ok.mp h
  have hlen : r.root.spelling.length = s.length := by rw [htext, String.length_toList]
  rw [← hlen]
  exact ⟨length_captures_le hfits.1, countP_category_le hfits.1⟩

end CaptureGrammar.Pattern
