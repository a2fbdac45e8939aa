import CaptureGrammar.Proofs.Derivation

/-! Grammars whose nonterminals do not lead back to themselves, and why those derive words. -/
namespace CaptureGrammar.Grammar

variable {ν μ : Type} {f : ν → μ} {g : Grammar ν} {n : ν} {x y : μ} {q : Production ν}
  {loops : ν → Prop}

/-- Some production of `a` has `b` in it. -/
def Mentions (g : Grammar ν) (a b : ν) : Prop :=
  ∃ r ∈ g.rules, r.lhs = a ∧ ∃ q ∈ r.productions, .nonterminal b ∈ q

/-- Whether every nonterminal, on either side of a rule, derives a word. -/
def Productive (g : Grammar ν) : Prop :=
  ∀ n, n ∈ g.rules.map Rule.lhs ∨ n ∈ g.mentioned → ∃ w, g.Derives [.nonterminal n] w

theorem mem_mentioned : n ∈ g.mentioned ↔ ∃ a, g.Mentions a n := by
  simp only [mentioned, Mentions, List.mem_flatMap, List.mem_filterMap,
    Symbol.nonterminal?_eq_some_iff]
  grind

theorem mentions_rename :
    (g.rename f).Mentions x y ↔ ∃ a b, f a = x ∧ f b = y ∧ g.Mentions a b := by
  constructor
  · rintro ⟨r', hr', rfl, q', hq', hy⟩
    obtain ⟨r, hr, rfl⟩ := List.mem_map.mp hr'
    obtain ⟨q, hq, rfl⟩ := List.mem_map.mp hq'
    obtain ⟨s, hs, hsy⟩ := List.mem_map.mp hy
    cases s with
    | nonterminal b =>
      cases hsy
      exact ⟨r.lhs, b, rfl, rfl, r, hr, rfl, q, hq, hs⟩
    | terminal | epsilon => cases hsy
  · rintro ⟨_, b, rfl, rfl, r, hr, rfl, q, hq, hb⟩
    exact ⟨_, List.mem_map.mpr ⟨r, hr, rfl⟩, rfl, _, List.mem_map.mpr ⟨q, hq, rfl⟩,
      List.mem_map.mpr ⟨_, hb, rfl⟩⟩

theorem map_lhs_rename : (g.rename f).rules.map Rule.lhs = (g.rules.map Rule.lhs).map f := by
  simp [rename, Rule.rename, Function.comp_def]

theorem mem_lhs_rename : x ∈ (g.rename f).rules.map Rule.lhs ↔
    ∃ n ∈ g.rules.map Rule.lhs, f n = x := by
  rw [map_lhs_rename, List.mem_map]

theorem Productive.rename (h : g.Productive) : (g.rename f).Productive := by
  have himage : ∀ x, x ∈ (g.rename f).rules.map Rule.lhs ∨ x ∈ (g.rename f).mentioned →
      ∃ n, f n = x ∧ (n ∈ g.rules.map Rule.lhs ∨ n ∈ g.mentioned) := by
    rintro x (hx | hx)
    · obtain ⟨n, hn, rfl⟩ := mem_lhs_rename.mp hx
      exact ⟨n, rfl, .inl hn⟩
    · obtain ⟨y, hy⟩ := mem_mentioned.mp hx
      obtain ⟨a, n, -, rfl, han⟩ := mentions_rename.mp hy
      exact ⟨n, rfl, .inr (mem_mentioned.mpr ⟨a, han⟩)⟩
  intro x hx
  obtain ⟨n, rfl, hn⟩ := himage x hx
  obtain ⟨w, hw⟩ := h n hn
  exact ⟨w, hw.rename⟩

end CaptureGrammar.Grammar
