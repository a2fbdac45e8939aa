import CaptureGrammar.Pattern.Spelling
import CaptureGrammar.Proofs.Lookahead
import CaptureGrammar.Proofs.Tree

/-! The trees that can be read at a given depth, told from their nodes. -/
namespace CaptureGrammar.Pattern

variable {n : Nat} {c : Char} {p q : Pattern} {ps : List Pattern} {id : GroupId}

theorem exists_cons_cons_of_length (h : 2 ≤ ps.length) : ∃ p q qs, ps = p :: q :: qs := by
  rcases ps with _ | ⟨p, _ | ⟨q, qs⟩⟩
  · simp at h
  · simp at h
  · exact ⟨p, q, qs, rfl⟩

theorem allCanonical_iff : AllCanonical ps ↔ ∀ p ∈ ps, p.IsCanonical := by
  induction ps with
  | nil => simp [AllCanonical]
  | cons p ps ih => simp [AllCanonical, ih]

theorem IsCanonical.of_mem_children (h : p.IsCanonical) (hq : q ∈ p.children) :
    q.IsCanonical := by
  cases p with
  | concat ps => exact allCanonical_iff.mp h.2.1 q hq
  | alt ps => exact allCanonical_iff.mp h.2.1 q hq
  | group id p | star p min max =>
    cases List.mem_singleton.mp hq
    exact h.1
  | char | exprRef | strRef => cases hq

theorem IsCanonical.of_mem (h : p.IsCanonical) (hq : q ∈ p.nodes) : q.IsCanonical := by
  induction p using childrenInduction with
  | node p ih =>
    rcases mem_nodes_iff.mp hq with rfl | ⟨c, hc, hq⟩
    · exact h
    · exact ih c hc (h.of_mem_children hc) hq

theorem nestingOfAll_le_iff : nestingOfAll ps ≤ n ↔ ∀ p ∈ ps, p.nesting ≤ n := by
  induction ps with
  | nil => simp [nestingOfAll]
  | cons p ps ih => rw [nestingOfAll, Nat.max_le, ih, List.forall_mem_cons]

/-- Whether a tree may stand in a sequence without brackets around it. -/
def IsAtom : Pattern → Prop
  | .concat _ | .alt _ => False
  | _ => True

/-- Whether a tree may be a branch without brackets around it. -/
def IsBranch : Pattern → Prop
  | .alt _ => False
  | _ => True

theorem isAtom_iff : p.IsAtom ↔ ∀ ps, p ≠ .concat ps ∧ p ≠ .alt ps := by
  cases p <;> simp [IsAtom]

theorem isBranch_iff : p.IsBranch ↔ ∀ ps, p ≠ .alt ps := by
  cases p <;> simp [IsBranch]

theorem IsAtom.isBranch (h : p.IsAtom) : p.IsBranch := by
  cases p <;> trivial

theorem isBranch_or (p : Pattern) : p.IsBranch ∨ ∃ ps, p = .alt ps := by
  cases p with
  | alt ps => exact .inr ⟨ps, rfl⟩
  | _ => exact .inl trivial

theorem IsBranch.isAtom_or (h : p.IsBranch) : p.IsAtom ∨ ∃ ps, p = .concat ps := by
  cases p with
  | concat ps => exact .inr ⟨ps, rfl⟩
  | alt => cases h
  | _ => exact .inl trivial

/-- A tree that some text spells, and that nests its brackets no more than `n` deep. -/
def Fits (n : Nat) (p : Pattern) : Prop := p.IsCanonical ∧ p.nesting ≤ n

/-- Fits inside brackets that are themselves the outermost of `n`. -/
def FitsInside (n : Nat) (p : Pattern) : Prop := ∃ m, n = m + 1 ∧ p.Fits m

theorem fitsInside_iff : p.FitsInside n ↔ p.IsCanonical ∧ p.nesting + 1 ≤ n := by
  constructor
  · rintro ⟨m, rfl, hc, hn⟩
    exact ⟨hc, Nat.succ_le_succ hn⟩
  · rintro ⟨hc, hn⟩
    exact ⟨n - 1, by omega, hc, by omega⟩

theorem FitsInside.canonical (h : p.FitsInside n) : p.IsCanonical :=
  (fitsInside_iff.mp h).1

theorem fits_char : (char c).Fits n ↔ c ∉ delimiters := and_iff_left (Nat.zero_le n)

theorem fits_concat : (concat ps).Fits n ↔ 2 ≤ ps.length ∧ ∀ p ∈ ps, p.Fits n ∧ p.IsAtom := by
  change (2 ≤ ps.length ∧ AllCanonical ps ∧ ∀ p ∈ ps, ∀ qs, p ≠ .concat qs ∧ p ≠ .alt qs) ∧
    nestingOfAll ps ≤ n ↔ _
  simp only [Fits, allCanonical_iff, nestingOfAll_le_iff, ← isAtom_iff]
  grind

theorem fits_alt : (alt ps).Fits n ↔ 2 ≤ ps.length ∧ ∀ p ∈ ps, p.Fits n ∧ p.IsBranch := by
  change (2 ≤ ps.length ∧ AllCanonical ps ∧ ∀ p ∈ ps, ∀ qs, p ≠ .alt qs) ∧
    nestingOfAll ps ≤ n ↔ _
  simp only [Fits, allCanonical_iff, nestingOfAll_le_iff, ← isBranch_iff]
  grind

theorem fits_group {id : Option GroupId} : (group id p).Fits n ↔
    p.FitsInside n ∧ (id.isSome → ∀ c ∈ p.spelling.head?, c ≠ '?' ∧ c ≠ '\\') := by
  rw [fitsInside_iff]
  exact and_right_comm

theorem fits_star {min : UInt32} {max : Option UInt32} :
    (star p min max).Fits n ↔ p.FitsInside n ∧ min = 0 ∧ max = none := by
  rw [fitsInside_iff]
  exact and_right_comm

theorem fits_exprRef : (exprRef id).Fits n ↔ id ≤ 9 := and_iff_left (Nat.zero_le n)

theorem fits_strRef : (strRef id).Fits n ↔ id ≤ 9 := and_iff_left (Nat.zero_le n)

/-- No canonical tree spells a text in front of which a sequence ends. -/
theorem endsSequence_spelling (h : p.IsCanonical) (cs : List Char) :
    endsSequence (p.spelling ++ cs) = false := by
  induction p using childrenInduction generalizing cs with
  | node p ih =>
    cases p with
    | char c =>
      change c ∉ ['(', ')', '<', '>', '|'] at h
      change endsSequence (c :: cs) = false
      simp only [List.mem_cons, not_or] at h
      simp [endsSequence, h]
    | concat ps =>
      obtain ⟨hlen, hall, -⟩ := h
      obtain ⟨p, q, ps, rfl⟩ := exists_cons_cons_of_length hlen
      rw [spelling, spellingOfAll, List.append_assoc]
      exact ih p List.mem_cons_self hall.1 _
    | alt ps =>
      obtain ⟨hlen, hall, -⟩ := h
      obtain ⟨p, q, ps, rfl⟩ := exists_cons_cons_of_length hlen
      rw [spelling, spellingOfBranches, List.append_assoc]
      exact ih p List.mem_cons_self hall.1 _
    | group id p => cases id <;> rfl
    | star | exprRef | strRef => rfl

theorem spelling_ne_nil (h : p.IsCanonical) : p.spelling ≠ [] := by
  intro hnil
  have hend := endsSequence_spelling h []
  rw [hnil] at hend
  cases hend

theorem head?_spelling_append (h : p.IsCanonical) (cs : List Char) :
    (p.spelling ++ cs).head? = p.spelling.head? := by
  obtain ⟨d, ds, hspell⟩ := List.exists_cons_of_ne_nil (spelling_ne_nil h)
  rw [hspell]
  rfl

end CaptureGrammar.Pattern
