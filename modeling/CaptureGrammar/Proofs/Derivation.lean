import CaptureGrammar.Grammar.Language

/-! Derivations taken apart by their first nonterminal, and carried along a renaming. -/
namespace CaptureGrammar

variable {ν μ : Type} {f : ν → μ} {g : Grammar ν} {n : ν} {p q : Production ν} {v w : List Char}

/-- `Spells L q w` says that `w` is written by `q` when each nonterminal stands for the words that
`L` gives it. -/
def Spells (L : ν → List Char → Prop) : Production ν → List Char → Prop
  | [], w => w = []
  | .terminal c :: q, w => ∃ v, w = c :: v ∧ Spells L q v
  | .epsilon :: q, w => Spells L q w
  | .nonterminal n :: q, w => ∃ u v, w = u ++ v ∧ L n u ∧ Spells L q v

theorem spells_single {L : ν → List Char → Prop} : Spells L [.nonterminal n] w ↔ L n w := by
  constructor
  · rintro ⟨u, v, rfl, hu, rfl⟩
    rwa [List.append_nil]
  · intro h
    exact ⟨w, [], (List.append_nil w).symm, h, rfl⟩

namespace Grammar

/-- The words of a nonterminal are within any language that is closed under the productions. -/
theorem Derives.spells {L : ν → List Char → Prop}
    (hL : ∀ r ∈ g.rules, ∀ q ∈ r.productions, ∀ w, Spells L q w → L r.lhs w)
    (h : g.Derives p w) : Spells L p w := by
  induction h with
  | nil => rfl
  | terminal _ ih => exact ⟨_, rfl, ih⟩
  | epsilon _ ih => exact ih
  | nonterminal hr hq _ _ ihv ihw => exact ⟨_, _, rfl, hL _ hr _ hq _ ihv, ihw⟩

theorem derives_single_iff : g.Derives [.nonterminal n] w ↔
    ∃ r ∈ g.rules, r.lhs = n ∧ ∃ q ∈ r.productions, g.Derives q w := by
  constructor
  · intro h
    cases h with
    | nonterminal hr hq hv hw =>
      cases hw
      rw [List.append_nil]
      exact ⟨_, hr, rfl, _, hq, hv⟩
  · rintro ⟨r, hr, rfl, q, hq, h⟩
    simpa using Derives.nonterminal hr hq h .nil

/-- A nonterminal in front contributes a word of its own. -/
theorem Derives.cons (h : g.Derives [.nonterminal n] v) (hw : g.Derives q w) :
    g.Derives (.nonterminal n :: q) (v ++ w) := by
  obtain ⟨r, hr, rfl, p, hp, hv⟩ := derives_single_iff.mp h
  exact .nonterminal hr hp hv hw

end Grammar

/-! ### Renaming -/

def Symbol.rename (f : ν → μ) : Symbol ν → Symbol μ
  | .terminal c => .terminal c
  | .nonterminal n => .nonterminal (f n)
  | .epsilon => .epsilon

def Rule.rename (f : ν → μ) (r : Rule ν) : Rule μ :=
  ⟨f r.lhs, r.productions.map (·.map (Symbol.rename f))⟩

/-- The grammar with `f n` in place of each nonterminal `n`. -/
def Grammar.rename (f : ν → μ) (g : Grammar ν) : Grammar μ :=
  ⟨f g.start, g.rules.map (Rule.rename f)⟩

namespace Grammar

theorem Derives.rename (h : g.Derives q w) : (g.rename f).Derives (q.map (Symbol.rename f)) w := by
  induction h with
  | nil => exact .nil
  | terminal _ ih => exact .terminal ih
  | epsilon _ ih => exact .epsilon ih
  | nonterminal hr hq _ _ ihv ihw =>
    exact .nonterminal (r := Rule.rename f _) (List.mem_map.mpr ⟨_, hr, rfl⟩)
      (List.mem_map.mpr ⟨_, hq, rfl⟩) ihv ihw

/-- Each derivation of a renamed grammar is a derivation renamed, as `f` keeps names apart. -/
theorem Derives.of_rename (hf : ∀ a b, f a = f b → a = b) {q' : Production μ}
    (h : (g.rename f).Derives q' w) : ∀ q, q' = q.map (Symbol.rename f) → g.Derives q w := by
  induction h with
  | nil =>
    intro q hq
    rw [List.nil_eq, List.map_eq_nil_iff] at hq
    exact hq ▸ .nil
  | terminal _ ih =>
    intro q hq
    obtain ⟨s, p, rfl, hs, rfl⟩ := List.map_eq_cons_iff.mp hq.symm
    cases s <;> cases hs
    exact .terminal (ih p rfl)
  | epsilon _ ih =>
    intro q hq
    obtain ⟨s, p, rfl, hs, rfl⟩ := List.map_eq_cons_iff.mp hq.symm
    cases s <;> cases hs
    exact .epsilon (ih p rfl)
  | nonterminal hr hp _ _ ihv ihw =>
    intro q hq
    obtain ⟨s, p, rfl, hs, rfl⟩ := List.map_eq_cons_iff.mp hq.symm
    obtain ⟨r, hmem, rfl⟩ := List.mem_map.mp hr
    obtain ⟨t, ht, rfl⟩ := List.mem_map.mp hp
    cases s with
    | terminal c => cases hs
    | epsilon => cases hs
    | nonterminal n =>
      have hn : n = r.lhs := hf _ _ (Symbol.nonterminal.inj hs)
      subst hn
      exact .nonterminal hmem ht (ihv t rfl) (ihw p rfl)

theorem derives_rename (hf : ∀ a b, f a = f b → a = b) :
    (g.rename f).Derives [.nonterminal (f n)] w ↔ g.Derives [.nonterminal n] w :=
  ⟨fun h => h.of_rename hf _ rfl, fun h => h.rename⟩

theorem generates_rename (hf : ∀ a b, f a = f b → a = b) :
    (g.rename f).Generates w ↔ g.Generates w := derives_rename hf

end Grammar

end CaptureGrammar
