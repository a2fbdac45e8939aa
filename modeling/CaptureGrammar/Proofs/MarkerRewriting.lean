import CaptureGrammar.Pattern.Marker
import CaptureGrammar.Proofs.BracketBalance
import CaptureGrammar.Proofs.RoundTrip
import Mathlib.Data.List.TakeDrop

/-!
Where the rewriting of a marker puts the bracket that begins the repetition.

It stands before the shortest end of the text in which parentheses balance by number. Behind a group
or a reference, that is the group or the reference.
-/
namespace CaptureGrammar.Pattern

variable {opens closes n : Nat} {c : Char} {cs u w before after : List Char} {s p g q : String}
  {r : Parsed}

/-! ### The scan -/

/-- Whether the text balances together with the parentheses counted before it. -/
def BalancedAfter (opens closes : Nat) (cs : List Char) : Prop :=
  opens + cs.count '(' = closes + cs.count ')' ∧ 0 < opens + cs.count '('

theorem balancedAfter_zero : BalancedAfter 0 0 cs ↔ Balanced cs := by
  simp only [BalancedAfter, Balanced, Nat.zero_add]

/-- The first character may as well be counted before the text. -/
theorem balancedAfter_cons : BalancedAfter opens closes (c :: cs) ↔
    BalancedAfter (if c = '(' then opens + 1 else opens) (if c = ')' then closes + 1 else closes)
      cs := by
  simp only [BalancedAfter, List.count_cons, beq_iff_eq]
  split <;> split <;> omega

/-- The scan finds the shortest start of the text that balances. -/
theorem exists_of_balancedLength? (h : balancedLength? opens closes cs = some n) :
    ∃ v rest, cs = v ++ rest ∧ v.length = n ∧ BalancedAfter opens closes v ∧
      ∀ x, x <+: v → x ≠ [] → BalancedAfter opens closes x → x = v := by
  fun_induction balancedLength? opens closes cs generalizing n with
  | case1 => cases h
  | case2 opens closes c cs =>
    rename_i hbal
    cases h
    refine ⟨[c], cs, rfl, rfl, balancedAfter_cons.mpr hbal, ?_⟩
    intro x hx hne _
    obtain ⟨t, rfl, ht⟩ := (List.prefix_cons_iff.mp hx).resolve_left hne
    rw [List.prefix_nil.mp ht]
  | case3 opens closes c cs opens' closes' hbal =>
    rename_i ih
    obtain ⟨m, hm, rfl⟩ := Option.map_eq_some_iff.mp h
    obtain ⟨v, rest, rfl, rfl, hv, hleast⟩ := ih hm
    refine ⟨c :: v, rest, rfl, rfl, balancedAfter_cons.mpr hv, ?_⟩
    intro x hx hne hxbal
    obtain ⟨t, rfl, ht⟩ := (List.prefix_cons_iff.mp hx).resolve_left hne
    have htbal : BalancedAfter opens' closes' t := balancedAfter_cons.mp hxbal
    have htne : t ≠ [] := by
      rintro rfl
      exact hbal htbal
    rw [hleast t ht htne htbal]

/-- When the scan finds nothing, no start of the text balances. -/
theorem not_balancedAfter_of_balancedLength? (h : balancedLength? opens closes cs = none)
    (hu : u <+: cs) (hne : u ≠ []) : ¬ BalancedAfter opens closes u := by
  fun_induction balancedLength? opens closes cs generalizing u with
  | case1 => exact absurd (List.prefix_nil.mp hu) hne
  | case2 => cases h
  | case3 opens closes c cs opens' closes' hbal =>
    rename_i ih
    obtain ⟨t, rfl, ht⟩ := (List.prefix_cons_iff.mp hu).resolve_left hne
    rw [balancedAfter_cons]
    by_cases htne : t = []
    · rw [htne]
      exact hbal
    · exact ih (Option.map_eq_none_iff.mp h) ht htne

/-! ### The rewritten text -/

/-- A bracket is put in before the shortest balanced end of the text, if there is a balanced one. -/
theorem openRepetition_cases (before : List Char) :
    (∃ u w, before = u ++ w ∧ ShortestBalanced w ∧ openRepetition before = u ++ '<' :: w) ∨
      (∀ w, w <:+ before → ¬ Balanced w) ∧ openRepetition before = before := by
  cases hscan : balancedLength? 0 0 before.reverse with
  | some n =>
    obtain ⟨v, rest, hrev, rfl, hbal, hleast⟩ := exists_of_balancedLength? hscan
    have hbefore : before = rest.reverse ++ v.reverse := by
      rw [← List.reverse_append, ← hrev, List.reverse_reverse]
    refine .inl ⟨rest.reverse, v.reverse, hbefore, ⟨?_, ?_⟩, ?_⟩
    · exact balanced_reverse.mpr (balancedAfter_zero.mp hbal)
    · -- The scan meets the text from its end, where a shorter end would come first.
      intro x hx hxbal
      have hprefix : x.reverse <+: v := by
        rw [← List.reverse_reverse v]
        exact List.reverse_prefix.mpr hx
      have hrevne : x.reverse ≠ [] := fun hnil => hxbal.ne_nil (List.reverse_eq_nil_iff.mp hnil)
      have hrevbal := balancedAfter_zero.mpr (balanced_reverse.mpr hxbal)
      rw [← hleast x.reverse hprefix hrevne hrevbal, List.reverse_reverse]
    · have hlen : before.length - v.length = rest.reverse.length := by
        rw [hbefore, List.length_append, List.length_reverse, List.length_reverse]
        omega
      simp only [openRepetition, hscan, hlen]
      rw [hbefore, List.take_left, List.drop_left]
  | none =>
    refine .inr ⟨?_, ?_⟩
    · intro w hw hbal
      have hne : w.reverse ≠ [] := fun hnil => hbal.ne_nil (List.reverse_eq_nil_iff.mp hnil)
      exact not_balancedAfter_of_balancedLength? hscan (List.reverse_prefix.mpr hw) hne
        (balancedAfter_zero.mpr (balanced_reverse.mpr hbal))
    · simp only [openRepetition, hscan]

theorem openRepetition_append (h : ShortestBalanced w) :
    openRepetition (u ++ w) = u ++ '<' :: w := by
  rcases openRepetition_cases (u ++ w) with ⟨x, y, hxy, hy, hopen⟩ | ⟨hnone, -⟩
  · obtain rfl : y = w := hy.eq h ⟨x, hxy.symm⟩ ⟨u, rfl⟩
    rw [hopen, List.append_cancel_right hxy]
  · exact absurd h.1 (hnone w (List.suffix_append u w))

theorem openRepetition_eq_self_iff :
    openRepetition before = before ↔ ∀ w, w <:+ before → ¬ Balanced w := by
  rcases openRepetition_cases before with ⟨u, w, rfl, hw, hput⟩ | ⟨hnone, hkeep⟩
  · constructor
    · intro hkeep
      have hcons : '<' :: w = w := List.append_cancel_left (hput.symm.trans hkeep)
      exact absurd hcons (List.cons_ne_self _ _)
    · intro hnone
      exact absurd hw.1 (hnone w (List.suffix_append u w))
  · exact ⟨fun _ => hnone, fun _ => hkeep⟩

theorem rewriteMarker_append (h : '*' ∉ before) :
    rewriteMarker (before ++ '*' :: after) = openRepetition before ++ '>' :: after := by
  have hspan : (before ++ '*' :: after).span (· != '*') = (before, '*' :: after) := by
    have hall : ∀ c ∈ before, (c != '*') = true := by
      intro c hc
      exact bne_iff_ne.mpr fun heq => h (heq ▸ hc)
    rw [List.span_eq_takeWhile_dropWhile, List.takeWhile_append_of_pos hall,
      List.dropWhile_append_of_pos hall]
    simp
  simp only [rewriteMarker, hspan]

theorem normalize_of_marker (hs : s.toList = before ++ '*' :: after) (hb : '*' ∉ before) :
    normalize s = String.ofList (openRepetition before ++ '>' :: after) := by
  rw [normalize, hs, rewriteMarker_append hb]

/-- A marker behind a group or a reference puts just that in brackets, whatever stands around. -/
theorem normalize_postfix (hp : '*' ∉ p.toList) (hg : '*' ∉ g.toList) (h : parse g = .ok r)
    (hroot : inParentheses r.root.completion = true) :
    normalize (p ++ g ++ "*" ++ q) = p ++ "<" ++ g ++ ">" ++ q := by
  obtain ⟨hfits, htext, -⟩ := parse_eq_ok.mp h
  have hshort : ShortestBalanced g.toList := htext ▸ shortestBalanced_spelling hfits.1 hroot
  have hs : (p ++ g ++ "*" ++ q).toList = (p.toList ++ g.toList) ++ '*' :: q.toList := by
    simp
  have hb : '*' ∉ p.toList ++ g.toList := by
    rw [List.mem_append]
    exact not_or.mpr ⟨hp, hg⟩
  rw [normalize_of_marker hs hb, openRepetition_append hshort, ← String.toList_inj,
    String.toList_ofList]
  simp

/-- The group has brackets of all kinds in it, and what stands around it is no pattern. -/
theorem normalize_postfix_unbalanced :
    ∃ r, parse "(a(?:b|<(\\1)>)?)" = .ok r ∧ inParentheses r.root.completion = true ∧
      '*' ∉ ")(<(".toList ∧ '*' ∉ "(a(?:b|<(\\1)>)?)".toList ∧
      normalize (")(<(" ++ "(a(?:b|<(\\1)>)?)" ++ "*" ++ ">)(*") =
        ")(<(" ++ "<" ++ "(a(?:b|<(\\1)>)?)" ++ ">" ++ ">)(*" := by
  let p : Pattern := .group (some 1) (.concat [.char 'a', .group none (.alt [.char 'b',
    .many (.strRef 1)]), .char '?'])
  have hparse : parse "(a(?:b|<(\\1)>)?)" = .ok ⟨p, p.postorder, 2⟩ :=
    parse_of_toOption (by with_unfolding_all decide)
  have hp : '*' ∉ ")(<(".toList := by decide
  have hg : '*' ∉ "(a(?:b|<(\\1)>)?)".toList := by decide
  exact ⟨_, hparse, rfl, hp, hg, normalize_postfix hp hg hparse rfl⟩

end CaptureGrammar.Pattern
