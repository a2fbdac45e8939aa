import CaptureGrammar.Proofs.MarkerRewriting
import Mathlib.Data.List.Basic
import Mathlib.Data.List.TakeWhile
import Mathlib.Data.Set.Basic
import Mathlib.Logic.Function.Iterate
import Mathlib.Order.Bounds.Defs

/-!
What rewriting a marker makes of a text, place by place.

One marker is rewritten at a time, from the left, so a text with markers settles after as many
rewritings as it has markers.
-/
namespace CaptureGrammar.Pattern

variable {s : String} {cs before after : List Char} {j : Nat}

/-- The places from which parentheses balance up to the first marker. -/
def repetitionStarts (cs : List Char) : Set Nat :=
  {j | j < cs.idxOf '*' ∧ Balanced ((cs.take (cs.idxOf '*')).drop j)}

theorem idxOf_marker (h : '*' ∉ before) : (before ++ '*' :: after).idxOf '*' = before.length := by
  rw [List.idxOf_append_of_notMem h, List.idxOf_cons_self, Nat.add_zero]

theorem mem_repetitionStarts (h : '*' ∉ before) : j ∈ repetitionStarts (before ++ '*' :: after) ↔
    j < before.length ∧ Balanced (before.drop j) := by
  rw [repetitionStarts, Set.mem_ofPred_eq, idxOf_marker h, List.take_left]

/-- A shortest balanced end of the text before the marker starts at the last place there is. -/
theorem isGreatest_repetitionStarts {u w : List Char} (h : '*' ∉ u ++ w)
    (hw : ShortestBalanced w) :
    IsGreatest (repetitionStarts (u ++ w ++ '*' :: after)) u.length := by
  have hlen : 0 < w.length := List.length_pos_of_ne_nil hw.1.ne_nil
  constructor
  · rw [mem_repetitionStarts h, List.drop_left, List.length_append]
    exact ⟨by omega, hw.1⟩
  · intro i hi
    obtain ⟨-, hbal⟩ := (mem_repetitionStarts h).mp hi
    by_contra hlt
    obtain ⟨d, rfl⟩ := Nat.exists_eq_add_of_lt (Nat.lt_of_not_le hlt)
    have hdrop : (u ++ w).drop (u.length + d + 1) = w.drop (d + 1) := by
      rw [Nat.add_assoc, List.drop_append, List.drop_of_length_le (by omega), List.nil_append]
      congr 1
      omega
    rw [hdrop] at hbal
    have hwhole : w.drop (d + 1) = w := hw.2 _ (List.drop_suffix _ _) hbal
    have hshort := congrArg List.length hwhole
    rw [List.length_drop] at hshort
    omega

theorem repetitionStarts_eq_empty (h : '*' ∉ before) (hnone : ∀ w, w <:+ before → ¬ Balanced w) :
    repetitionStarts (before ++ '*' :: after) = ∅ := by
  rw [Set.eq_empty_iff_forall_notMem]
  intro i hi
  exact hnone _ (List.drop_suffix i before) ((mem_repetitionStarts h).mp hi).2

/-- The bracket that begins the repetition stands at the last place from which parentheses balance
up to the marker. Without such a place there is none. -/
theorem toList_normalize_cases (hs : s.toList = before ++ '*' :: after) (h : '*' ∉ before) :
    (∃ j, IsGreatest (repetitionStarts s.toList) j ∧
      (normalize s).toList = before.take j ++ '<' :: before.drop j ++ '>' :: after) ∨
      repetitionStarts s.toList = ∅ ∧ (normalize s).toList = before ++ '>' :: after := by
  rw [normalize_of_marker hs h, String.toList_ofList, hs]
  rcases openRepetition_cases before with ⟨u, w, rfl, hw, hopen⟩ | ⟨hnone, hopen⟩
  · refine .inl ⟨u.length, isGreatest_repetitionStarts h hw, ?_⟩
    rw [hopen, List.take_left, List.drop_left]
  · exact .inr ⟨repetitionStarts_eq_empty h hnone, by rw [hopen]⟩

/-- What is put in is no marker, and what stands behind the first marker stays. -/
theorem exists_toList_normalize (hs : s.toList = before ++ '*' :: after) (h : '*' ∉ before) :
    ∃ front, '*' ∉ front ∧ (normalize s).toList = front ++ after := by
  rcases toList_normalize_cases hs h with ⟨j, -, htext⟩ | ⟨-, htext⟩
  · have htake : '*' ∉ before.take j := fun hmem => h (List.mem_of_mem_take hmem)
    have hdrop : '*' ∉ before.drop j := fun hmem => h (List.mem_of_mem_drop hmem)
    refine ⟨before.take j ++ '<' :: before.drop j ++ ['>'], ?_, by simp [htext]⟩
    simp [htake, hdrop]
  · exact ⟨before ++ ['>'], by simp [h], by simp [htext]⟩

theorem normalize_of_no_marker (h : '*' ∉ s.toList) : normalize s = s := by
  have hspan : s.toList.span (· != '*') = (s.toList, []) := by
    have hall : ∀ c ∈ s.toList, (c != '*') = true := by
      intro c hc
      exact bne_iff_ne.mpr fun heq => h (heq ▸ hc)
    rw [List.span_eq_takeWhile_dropWhile, List.takeWhile_eq_self_iff.mpr hall,
      List.dropWhile_eq_nil_iff.mpr hall]
  rw [normalize, rewriteMarker, hspan, String.ofList_toList]

theorem length_normalize_le (s : String) : (normalize s).length ≤ s.length + 1 := by
  rw [← String.length_toList, ← String.length_toList]
  by_cases h : '*' ∈ s.toList
  · obtain ⟨before, after, hs, hb⟩ := List.eq_append_cons_of_mem h
    rcases toList_normalize_cases hs hb with ⟨j, -, htext⟩ | ⟨-, htext⟩
    · have hsplit := congrArg List.length (List.take_append_drop j before)
      rw [List.length_append] at hsplit
      simp only [htext, hs, List.length_append, List.length_cons]
      omega
    · simp only [htext, hs, List.length_append, List.length_cons]
      omega
  · rw [normalize_of_no_marker h]
    exact Nat.le_succ _

/-! ### Rewriting again and again -/

theorem count_normalize (s : String) :
    (normalize s).toList.count '*' = s.toList.count '*' - 1 := by
  by_cases h : '*' ∈ s.toList
  · obtain ⟨before, after, hs, hb⟩ := List.eq_append_cons_of_mem h
    obtain ⟨front, hf, htext⟩ := exists_toList_normalize hs hb
    rw [htext, hs, List.count_append, List.count_append, List.count_cons_self,
      List.count_eq_zero_of_not_mem hf, List.count_eq_zero_of_not_mem hb]
    omega
  · rw [normalize_of_no_marker h, List.count_eq_zero_of_not_mem h]

theorem count_iterate_normalize (n : Nat) (s : String) :
    (normalize^[n] s).toList.count '*' = s.toList.count '*' - n := by
  induction n with
  | zero => rfl
  | succ n ih => rw [Function.iterate_succ_apply', count_normalize, ih, Nat.sub_sub]

theorem marker_notMem_iterate (s : String) :
    '*' ∉ (normalize^[s.toList.count '*'] s).toList := by
  rw [← List.count_eq_zero, count_iterate_normalize, Nat.sub_self]

/-- Rewriting replaces the first marker by `>`, and puts `<` at the last place from which the text
up to there has parentheses, as many that open as that close. Nothing else changes, the later
markers included, and nothing at all in a text without markers. So when the text has been rewritten
once for each of its markers, it has none left and stays as it is. -/
theorem normalize_eq (s : String) :
    ('*' ∉ s.toList → normalize s = s) ∧
    ('*' ∈ s.toList →
      ((∃ j, IsGreatest (repetitionStarts s.toList) j ∧ (normalize s).toList =
          s.toList.take j ++ '<' :: (s.toList.take (s.toList.idxOf '*')).drop j ++
            '>' :: s.toList.drop (s.toList.idxOf '*' + 1)) ∨
        repetitionStarts s.toList = ∅ ∧
          (normalize s).toList = s.toList.set (s.toList.idxOf '*') '>') ∧
      (normalize s).toList.count '*' + 1 = s.toList.count '*' ∧
      ∃ front, '*' ∉ front ∧
        (normalize s).toList = front ++ s.toList.drop (s.toList.idxOf '*' + 1)) ∧
    '*' ∉ (normalize^[s.toList.count '*'] s).toList ∧
    normalize (normalize^[s.toList.count '*'] s) = normalize^[s.toList.count '*'] s := by
  refine ⟨normalize_of_no_marker, ?_, marker_notMem_iterate s,
    normalize_of_no_marker (marker_notMem_iterate s)⟩
  intro h
  obtain ⟨before, after, hs, hb⟩ := List.eq_append_cons_of_mem h
  have hplace : s.toList.idxOf '*' = before.length := by rw [hs, idxOf_marker hb]
  have htake : s.toList.take before.length = before := by rw [hs, List.take_left]
  have hdrop : s.toList.drop (before.length + 1) = after := by simp [hs]
  rw [hplace, htake, hdrop]
  refine ⟨?_, ?_, exists_toList_normalize hs hb⟩
  · rcases toList_normalize_cases hs hb with ⟨j, hj, htext⟩ | ⟨hnone, htext⟩
    · have hle : j ≤ before.length := by
        have hmem := hj.1
        rw [hs, mem_repetitionStarts hb] at hmem
        exact Nat.le_of_lt hmem.1
      have hfirst : s.toList.take j = before.take j := by
        rw [hs, List.take_append_of_le_length hle]
      exact .inl ⟨j, hj, by rw [hfirst, htext]⟩
    · exact .inr ⟨hnone, by rw [htext, hs]; simp⟩
  · have hpos : 0 < s.toList.count '*' := List.count_pos_iff.mpr h
    rw [count_normalize]
    omega

/-- Two groups stand before the first of two markers, and the repetition starts at the later one. -/
theorem normalize_eq_two_groups :
    let s := "(é)(b)c*d*"
    '*' ∈ s.toList ∧ 0 ∈ repetitionStarts s.toList ∧ IsGreatest (repetitionStarts s.toList) 3 ∧
      (normalize s).toList = "(é)<(b)c>d*".toList ∧
      normalize (normalize^[2] s) = normalize^[2] s := by
  intro s
  have hmarker : '*' ∈ s.toList := by decide
  have hfirst : 0 ∈ repetitionStarts s.toList := ⟨by decide, by decide⟩
  have hlast : IsGreatest (repetitionStarts s.toList) 3 := by
    refine ⟨⟨by decide, by decide⟩, fun i hi => ?_⟩
    have hbound : ∀ i < s.toList.idxOf '*',
        Balanced ((s.toList.take (s.toList.idxOf '*')).drop i) → i ≤ 3 := by decide
    exact hbound i hi.1 hi.2
  have hcount : s.toList.count '*' = 2 := by decide
  obtain ⟨-, hmarked, -, hfixed⟩ := normalize_eq s
  rw [hcount] at hfixed
  obtain ⟨⟨j, hj, htext⟩ | ⟨hnone, -⟩, -⟩ := hmarked hmarker
  · obtain rfl : j = 3 := le_antisymm (hlast.2 hj.1) (hj.2 hlast.1)
    exact ⟨hmarker, hfirst, hlast, htext.trans (by decide), hfixed⟩
  · rw [hnone] at hfirst
    exact absurd hfirst (Set.notMem_empty 0)

end CaptureGrammar.Pattern
