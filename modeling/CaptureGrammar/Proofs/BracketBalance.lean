import CaptureGrammar.Proofs.Closings
import CaptureGrammar.Proofs.Scanner

/-!
Brackets counted in texts, as the rewriting of a marker counts them.

Whatever brackets a tree's text has are nested in it, so the text of a tree in parentheses balances,
and no shorter end of it does.
-/
namespace CaptureGrammar.Pattern

variable {b b' : Bracket} {c : Char} {cs u v w : List Char} {p : Pattern} {ps : List Pattern}

/-- Whether parentheses occur in the text, as many that open as that close. -/
def Balanced (cs : List Char) : Prop := cs.count '(' = cs.count ')' ∧ 0 < cs.count '('

instance : DecidablePred Balanced := fun cs =>
  inferInstanceAs (Decidable (cs.count '(' = cs.count ')' ∧ 0 < cs.count '('))

/-- Whether the text balances, and no shorter end of it does. -/
def ShortestBalanced (cs : List Char) : Prop := Balanced cs ∧ ∀ v, v <:+ cs → Balanced v → v = cs

theorem Balanced.ne_nil (h : Balanced cs) : cs ≠ [] := by
  rintro rfl
  exact Nat.lt_irrefl 0 h.2

theorem balanced_reverse : Balanced cs.reverse ↔ Balanced cs := by
  simp only [Balanced, List.count_reverse]

/-- A text has one shortest balanced end. -/
theorem ShortestBalanced.eq (hv : ShortestBalanced v) (hw : ShortestBalanced w) (hvu : v <:+ u)
    (hwu : w <:+ u) : v = w := by
  rcases List.suffix_or_suffix_of_suffix hvu hwu with h | h
  · exact hw.2 v h hv.1
  · exact (hv.2 w h hw.1).symm

/-- The balance of a shortest balanced text hangs on its first character. -/
theorem ShortestBalanced.head_paren (h : ShortestBalanced (c :: cs)) : c = '(' ∨ c = ')' := by
  by_cases hopen : c = '('
  · exact .inl hopen
  · by_cases hclose : c = ')'
    · exact .inr hclose
    · have hbal : Balanced cs := by
        simpa only [Balanced, List.count_cons_of_ne hopen, List.count_cons_of_ne hclose] using h.1
      exact absurd (h.2 cs (List.suffix_cons c cs) hbal) List.ne_cons_self

/-! ### Nested brackets -/

def Bracket.opening : Bracket → Char
  | .group => '('
  | .star => '<'

theorem Bracket.opening_ne_close : b.opening ≠ b'.close := by
  cases b <;> cases b' <;> decide

theorem Bracket.opening_inj : b.opening = b'.opening ↔ b = b' := by
  cases b <;> cases b' <;> decide

theorem Bracket.close_inj : b.close = b'.close ↔ b = b' := by
  cases b <;> cases b' <;> decide

/-- Whether the text opens as many of the brackets as it closes, and no end of it opens more. -/
structure Nested (b : Bracket) (cs : List Char) : Prop where
  count_eq : cs.count b.opening = cs.count b.close
  count_le : ∀ u v, cs = u ++ v → v.count b.opening ≤ v.count b.close

namespace Nested

/-- No start of the text closes more than it opens. -/
theorem close_le (h : Nested b (u ++ v)) : u.count b.close ≤ u.count b.opening := by
  have heq := h.count_eq
  have hle := h.count_le u v rfl
  rw [List.count_append, List.count_append] at heq
  omega

theorem of_not_mem (hopen : b.opening ∉ cs) (hclose : b.close ∉ cs) : Nested b cs := by
  constructor
  · rw [List.count_eq_zero_of_not_mem hopen, List.count_eq_zero_of_not_mem hclose]
  · rintro u v rfl
    have hv : b.opening ∉ v := fun hmem => hopen (List.mem_append_right u hmem)
    rw [List.count_eq_zero_of_not_mem hv]
    exact Nat.zero_le _

theorem singleton (hopen : b.opening ≠ c) (hclose : b.close ≠ c) : Nested b [c] :=
  of_not_mem (fun hmem => hopen (List.mem_singleton.mp hmem))
    (fun hmem => hclose (List.mem_singleton.mp hmem))

theorem append (hv : Nested b v) (hw : Nested b w) : Nested b (v ++ w) := by
  constructor
  · rw [List.count_append, List.count_append, hv.count_eq, hw.count_eq]
  · intro x y hxy
    rcases List.append_eq_append_iff.mp hxy with ⟨z, rfl, hz⟩ | ⟨z, hz, rfl⟩
    · exact hw.count_le z y hz
    · rw [List.count_append, List.count_append]
      exact Nat.add_le_add (hv.count_le x z hz) (Nat.le_of_eq hw.count_eq)

/-- A bracket and what closes it, around a text in which brackets are nested. -/
theorem enclose (b' : Bracket) (h : Nested b cs) :
    Nested b (b'.opening :: cs ++ [b'.close]) := by
  by_cases hb : b' = b
  · -- Of the ends of the text, only the whole has the opening bracket.
    subst hb
    have hne : b'.opening ≠ b'.close := Bracket.opening_ne_close
    have hcount : (b'.opening :: cs ++ [b'.close]).count b'.opening =
        (b'.opening :: cs ++ [b'.close]).count b'.close := by
      simp [List.count_append, h.count_eq, hne, hne.symm]
    constructor
    · exact hcount
    · intro u v huv
      have hsuffix : v <:+ b'.opening :: cs ++ [b'.close] := ⟨u, huv.symm⟩
      rcases List.suffix_cons_iff.mp hsuffix with rfl | hsuffix
      · exact Nat.le_of_eq hcount
      · rcases List.suffix_concat_iff.mp hsuffix with rfl | ⟨w, rfl, x, rfl⟩
        · exact Nat.le_refl _
        · have hle := h.count_le x w rfl
          have hzero : [b'.close].count b'.opening = 0 :=
            List.count_eq_zero_of_not_mem fun hmem => hne (List.mem_singleton.mp hmem)
          rw [List.count_append, List.count_append, hzero]
          omega
  · -- Brackets of another kind do not count.
    have hopen : b.opening ≠ b'.opening := fun heq => hb (Bracket.opening_inj.mp heq).symm
    have hclose : b.close ≠ b'.close := fun heq => hb (Bracket.close_inj.mp heq).symm
    have hstart : Nested b [b'.opening] := singleton hopen Bracket.opening_ne_close.symm
    have hend : Nested b [b'.close] := singleton Bracket.opening_ne_close hclose
    exact (hstart.append h).append hend

end Nested

theorem nested_digit (h : c.isDigit) : Nested b [c] := by
  have hopen : b.opening ≠ c := ne_of_isDigit h (by cases b <;> rfl)
  have hclose : b.close ≠ c := ne_of_isDigit h (by cases b <;> rfl)
  exact .singleton hopen hclose

/-! ### The texts of trees -/

theorem nested_spellingOfAll (h : ∀ p ∈ ps, Nested b p.spelling) : Nested b (spellingOfAll ps) := by
  induction ps with
  | nil => exact .of_not_mem List.not_mem_nil List.not_mem_nil
  | cons p ps ih =>
    obtain ⟨hp, hps⟩ := List.forall_mem_cons.mp h
    exact hp.append (ih hps)

theorem nested_spellingOfBranches (h : ∀ p ∈ ps, Nested b p.spelling) :
    Nested b (spellingOfBranches ps) := by
  induction ps with
  | nil => exact .of_not_mem List.not_mem_nil List.not_mem_nil
  | cons p ps ih =>
    obtain ⟨hp, hps⟩ := List.forall_mem_cons.mp h
    cases ps with
    | nil => exact hp
    | cons q ps =>
      have hbar : Nested b ['|'] := .singleton (by cases b <;> decide) (by cases b <;> decide)
      exact hp.append (hbar.append (ih hps))

/-- What stands in the parentheses of a group or a reference. -/
theorem exists_inside (h : p.IsCanonical) (hp : inParentheses p.completion = true)
    (hin : ∀ q ∈ p.children, Nested b q.spelling) :
    ∃ cs, p.spelling = '(' :: cs ++ [')'] ∧ Nested b cs := by
  cases p with
  | group id p =>
    have hbody : Nested b p.spelling := hin p (List.mem_singleton_self p)
    cases id with
    | some id => exact ⟨p.spelling, rfl, hbody⟩
    | none =>
      have hsigil : Nested b ['?', ':'] :=
        .of_not_mem (by cases b <;> decide) (by cases b <;> decide)
      exact ⟨'?' :: ':' :: p.spelling, rfl, hsigil.append hbody⟩
  | exprRef id | strRef id =>
    obtain ⟨d, hd, rfl⟩ := exists_digit h
    refine ⟨_ :: (toString (digitValue d)).toList, rfl, ?_⟩
    rw [toList_toString_digitValue hd, ← List.singleton_append]
    exact .append (.singleton (by cases b <;> decide) (by cases b <;> decide)) (nested_digit hd)
  | char | concat | alt | star => cases hp

theorem nested_spelling (h : p.IsCanonical) : Nested b p.spelling := by
  induction p using childrenInduction with
  | node p ih =>
    cases p with
    | char c =>
      refine .singleton (fun heq => h ?_) (fun heq => h ?_)
      all_goals
        rw [← heq]
        cases b <;> decide
    | concat ps =>
      have hall := allCanonical_iff.mp h.2.1
      exact nested_spellingOfAll fun p hp => ih p hp (hall p hp)
    | alt ps =>
      have hall := allCanonical_iff.mp h.2.1
      exact nested_spellingOfBranches fun p hp => ih p hp (hall p hp)
    | star p min max => exact (ih p List.mem_cons_self h.1).enclose .star
    | group id p =>
      have hbody : ∀ q ∈ (group id p).children, Nested b q.spelling :=
        List.forall_mem_singleton.mpr (ih p List.mem_cons_self h.1)
      obtain ⟨cs, htext, hcs⟩ := exists_inside h rfl hbody
      rw [htext]
      exact hcs.enclose .group
    | exprRef id | strRef id =>
      obtain ⟨cs, htext, hcs⟩ := exists_inside h rfl (fun q hq => by cases hq)
      rw [htext]
      exact hcs.enclose .group

theorem exists_parentheses (h : p.IsCanonical) (hp : inParentheses p.completion = true) :
    ∃ cs, p.spelling = '(' :: cs ++ [')'] ∧ Nested .group cs :=
  exists_inside h hp fun _ hq => nested_spelling (h.of_mem_children hq)

theorem getLast?_spelling (h : p.IsCanonical) (hp : inParentheses p.completion = true) :
    p.spelling.getLast? = some ')' := by
  obtain ⟨cs, htext, -⟩ := exists_parentheses h hp
  rw [htext, List.getLast?_concat]

/-- Nothing shorter at the end of a group or a reference balances than the whole of it. -/
theorem shortestBalanced_spelling (h : p.IsCanonical) (hp : inParentheses p.completion = true) :
    ShortestBalanced p.spelling := by
  obtain ⟨cs, htext, hcs⟩ := exists_parentheses h hp
  have hcount : cs.count '(' = cs.count ')' := hcs.count_eq
  rw [htext]
  refine ⟨?_, ?_⟩
  · simp [Balanced, List.count_append, hcount]
  · intro v hv hbal
    rcases List.suffix_cons_iff.mp hv with rfl | hv
    · rfl
    · rcases List.suffix_concat_iff.mp hv with rfl | ⟨w, rfl, u, rfl⟩
      · exact absurd rfl hbal.ne_nil
      · have hle : w.count '(' ≤ w.count ')' := hcs.count_le u w rfl
        have hopen : [')'].count '(' = 0 := rfl
        have hclose : [')'].count ')' = 1 := rfl
        have heq := hbal.1
        rw [List.count_append, List.count_append, hopen, hclose] at heq
        omega

end CaptureGrammar.Pattern
