import CaptureGrammar.Proofs.NonterminalName
import CaptureGrammar.Proofs.RuleTable

/-!
Tables with an index, from which the place of a rule is told by the name on its left.

The index grows with the table, a name at a time. As long as it is in step it tells of each name
the one rule that carries it, and the table is what it would be without an index.
-/
namespace CaptureGrammar

namespace Rule

section

variable {ν : Type} [DecidableEq ν] {n : ν} {q : Production ν} {r : Rule ν} {rs : List (Rule ν)}
  {i : Nat}

theorem define_of_mem (h : n ∈ rs.map lhs) : define n rs = rs := by
  induction rs with
  | nil => cases h
  | cons r rs ih =>
    by_cases hr : r.lhs = n
    · simp [define, hr]
    · have hrest : n ∈ rs.map lhs := by simpa [Ne.symm hr] using h
      simp [define, hr, ih hrest]

theorem define_of_notMem (h : n ∉ rs.map lhs) : define n rs = rs ++ [⟨n, []⟩] := by
  induction rs with
  | nil => rfl
  | cons r rs ih =>
    rw [List.map_cons, List.mem_cons, not_or] at h
    simp [define, Ne.symm h.1, ih h.2]

/-- To have a rule and to be given a production is no more than to be given it. -/
theorem push_define : push n q (define n rs) = push n q rs := by
  induction rs with
  | nil => simp [define, push]
  | cons r rs ih => by_cases hr : r.lhs = n <;> simp [define, push, hr, ih]

def addProduction (q : Production ν) (r : Rule ν) : Rule ν :=
  { r with productions := r.productions ++ [q] }

/-- Where no nonterminal has two rules, a production goes to the rule that has its place. -/
theorem push_eq_modify (hnodup : (rs.map lhs).Nodup) (hr : rs[i]? = some r) (hn : r.lhs = n) :
    push n q rs = rs.modify i (addProduction q) := by
  induction rs generalizing i with
  | nil => cases hr
  | cons s rs ih =>
    rw [List.map_cons, List.nodup_cons] at hnodup
    cases i with
    | zero =>
      obtain rfl : s = r := by simpa using hr
      simp [push, hn, addProduction]
    | succ i =>
      rw [List.getElem?_cons_succ] at hr
      have hne : s.lhs ≠ n := by
        intro hs
        apply hnodup.1
        rw [hs, ← hn]
        exact List.mem_map_of_mem (List.mem_of_getElem? hr)
      simp [push, hne, ih hnodup.2 hr]

/-! ### Places -/

theorem getElem?_push (hnodup : (rs.map lhs).Nodup) (hr : rs[i]? = some r) :
    (push n q rs)[i]? = some ⟨r.lhs, r.productions ++ if n = r.lhs then [q] else []⟩ := by
  induction rs generalizing i with
  | nil => cases hr
  | cons s rs ih =>
    rw [List.map_cons, List.nodup_cons] at hnodup
    cases i with
    | zero =>
      obtain rfl : s = r := by simpa using hr
      by_cases hs : s.lhs = n
      · simp [push, hs]
      · simp [push, hs, Ne.symm hs]
    | succ i =>
      rw [List.getElem?_cons_succ] at hr
      by_cases hs : s.lhs = n
      · have hne : n ≠ r.lhs := by
          rintro rfl
          exact hnodup.1 (hs ▸ List.mem_map_of_mem (List.mem_of_getElem? hr))
        simp [push, hs, hr, hne]
      · simp [push, hs, ih hnodup.2 hr]

/-- A change leaves each rule in its place, and adds to its productions what is pushed to it. -/
theorem getElem?_edit {e : Edit ν} (hnodup : (rs.map lhs).Nodup) (hr : rs[i]? = some r) :
    (edit rs e)[i]? = some ⟨r.lhs, r.productions ++ pushedTo r.lhs [e]⟩ := by
  cases e with
  | define n =>
    have hlt := (List.getElem?_eq_some_iff.mp hr).1
    by_cases hn : n ∈ rs.map lhs
    · simp [edit, define_of_mem hn, hr, pushedTo]
    · simp [edit, define_of_notMem hn, List.getElem?_append_left hlt, hr, pushedTo]
  | push n q =>
    rw [edit, getElem?_push hnodup hr]
    by_cases hn : n = r.lhs <;> simp [pushedTo, hn]

theorem getElem?_editAll {es : List (Edit ν)} (hnodup : (rs.map lhs).Nodup)
    (hr : rs[i]? = some r) :
    (editAll rs es)[i]? = some ⟨r.lhs, r.productions ++ pushedTo r.lhs es⟩ := by
  induction es generalizing rs r with
  | nil => simp [pushedTo, hr]
  | cons e es ih =>
    have hpushed : pushedTo r.lhs (e :: es) = pushedTo r.lhs [e] ++ pushedTo r.lhs es :=
      List.filterMap_append (l := [e])
    rw [editAll_cons, ih (nodup_edit hnodup) (getElem?_edit hnodup hr), hpushed,
      List.append_assoc]

/-- New rules stand behind the old ones. -/
theorem map_lhs_isPrefix_editAll {es : List (Edit ν)} :
    rs.map lhs <+: (editAll rs es).map lhs := by
  induction es generalizing rs with
  | nil => exact List.prefix_rfl
  | cons e es ih =>
    refine List.IsPrefix.trans ?_ ih
    rw [map_lhs_edit]
    split
    · exact List.prefix_rfl
    · exact List.prefix_append _ _

theorem mem_lhs_editAll {es : List (Edit ν)} :
    n ∈ (editAll rs es).map lhs ↔ n ∈ rs.map lhs ∨ n ∈ es.map Edit.target := by
  induction es generalizing rs with
  | nil => simp
  | cons e es ih =>
    rw [editAll_cons, ih, map_lhs_edit, List.map_cons, List.mem_cons]
    by_cases he : e.target ∈ rs.map lhs
    · rw [if_pos he]
      grind
    · rw [if_neg he, List.mem_append, List.mem_singleton, or_assoc]

end

end Rule

theorem getElem?_concat_eq_some_iff {α : Type} {l : List α} {a b : α} {i : Nat} :
    (l ++ [a])[i]? = some b ↔ l[i]? = some b ∨ i = l.length ∧ a = b := by
  grind

/-- A table, and by each name the place of the rule that carries it. -/
structure IndexedRules where
  rules : List (Rule Nonterminal) := []
  index : String → Option Nat := fun _ => none

namespace IndexedRules

variable {t : IndexedRules} {n : Nonterminal} {q : Production Nonterminal} {i : Nat} {name : String}

/-- The place of the rule for `n`. Without one, there is a new rule at the end. -/
def locate (t : IndexedRules) (n : Nonterminal) : Nat × IndexedRules :=
  match t.index n.name with
  | some i => (i, t)
  | none =>
    (t.rules.length,
      { rules := t.rules ++ [⟨n, []⟩]
        index := fun name => if name = n.name then some t.rules.length else t.index name })

def edit (t : IndexedRules) : Edit Nonterminal → IndexedRules
  | .define n => (t.locate n).2
  | .push n q =>
    let (i, t) := t.locate n
    { t with rules := t.rules.modify i (Rule.addProduction q) }

/-- The table after some changes in a row. -/
def editAll (t : IndexedRules) (es : List (Edit Nonterminal)) : IndexedRules := es.foldl edit t

/-- Whether the index finds just the rule that carries a name. -/
def InStep (t : IndexedRules) : Prop :=
  ∀ name i, t.index name = some i ↔ ∃ r, t.rules[i]? = some r ∧ r.lhs.name = name

theorem inStep_empty : InStep {} := by
  intro name i
  simp

namespace InStep

theorem eq_of_name_eq {j : Nat} {r s : Rule Nonterminal} (h : t.InStep) (hr : t.rules[i]? = some r)
    (hs : t.rules[j]? = some s) (hname : r.lhs.name = s.lhs.name) : i = j := by
  have hi := (h _ _).mpr ⟨r, hr, rfl⟩
  have hj := (h _ _).mpr ⟨s, hs, rfl⟩
  rw [hname, hj] at hi
  exact (Option.some.inj hi).symm

theorem nodup_lhs (h : t.InStep) : (t.rules.map Rule.lhs).Nodup := by
  rw [List.Nodup, List.pairwise_iff_getElem]
  intro i j hi hj hij heq
  rw [List.length_map] at hi hj
  rw [List.getElem_map, List.getElem_map] at heq
  have hij' : i = j := h.eq_of_name_eq (List.getElem?_eq_getElem hi) (List.getElem?_eq_getElem hj)
    (congrArg Nonterminal.name heq)
  omega

/-- A name that the index does not know is on no rule. -/
theorem notMem_lhs (h : t.InStep) (hn : t.index n.name = none) : n ∉ t.rules.map Rule.lhs := by
  intro hmem
  obtain ⟨r, hr, rfl⟩ := List.mem_map.mp hmem
  obtain ⟨i, hi⟩ := List.mem_iff_getElem?.mp hr
  have hsome := (h _ _).mpr ⟨r, hi, rfl⟩
  rw [hn] at hsome
  cases hsome

theorem rules_locate (h : t.InStep) : (t.locate n).2.rules = Rule.define n t.rules := by
  rw [locate]
  split
  · next i hi =>
    obtain ⟨r, hr, hname⟩ := (h _ _).mp hi
    obtain rfl := Nonterminal.name_injective hname
    exact (Rule.define_of_mem (List.mem_map_of_mem (List.mem_of_getElem? hr))).symm
  · next hnone => exact (Rule.define_of_notMem (h.notMem_lhs hnone)).symm

/-- What is located is the rule for `n`. -/
theorem getElem?_locate (h : t.InStep) :
    ∃ r, (t.locate n).2.rules[(t.locate n).1]? = some r ∧ r.lhs = n := by
  rw [locate]
  split
  · next i hi =>
    obtain ⟨r, hr, hname⟩ := (h _ _).mp hi
    exact ⟨r, hr, Nonterminal.name_injective hname⟩
  · exact ⟨⟨n, []⟩, by simp, rfl⟩

theorem locate (h : t.InStep) : (t.locate n).2.InStep := by
  rw [IndexedRules.locate]
  split
  · exact h
  · next hnone =>
    intro name i
    have hnew : (∃ r : Rule Nonterminal, (i = t.rules.length ∧ ⟨n, []⟩ = r) ∧
        r.lhs.name = name) ↔ i = t.rules.length ∧ n.name = name := by
      constructor
      · rintro ⟨r, ⟨hi, rfl⟩, hname⟩
        exact ⟨hi, hname⟩
      · rintro ⟨hi, hname⟩
        exact ⟨_, ⟨hi, rfl⟩, hname⟩
    simp only [getElem?_concat_eq_some_iff, or_and_right, exists_or, ← h name i, hnew]
    by_cases hname : name = n.name
    · subst hname
      simp [hnone, @eq_comm _ i]
    · simp [hname, Ne.symm hname]

/-- The index is not concerned with productions. -/
theorem modify (h : t.InStep) :
    InStep { t with rules := t.rules.modify i (Rule.addProduction q) } := by
  intro name j
  rw [h]
  simp only [List.getElem?_modify]
  constructor
  · rintro ⟨r, hr, hname⟩
    by_cases hij : i = j
    · exact ⟨Rule.addProduction q r, by simp [hij, hr], hname⟩
    · exact ⟨r, by simp [hij, hr], hname⟩
  · rintro ⟨s, hs, hname⟩
    obtain ⟨r, hr, rfl⟩ := Option.map_eq_some_iff.mp hs
    refine ⟨r, hr, ?_⟩
    rw [← hname]
    split <;> rfl

/-- A change keeps the index in step, and does to the rules what it does without one. -/
theorem edit {e : Edit Nonterminal} (h : t.InStep) :
    (t.edit e).InStep ∧ (t.edit e).rules = Rule.edit t.rules e := by
  cases e with
  | define n => exact ⟨h.locate, h.rules_locate⟩
  | push n q =>
    obtain ⟨r, hr, hn⟩ := h.getElem?_locate (n := n)
    refine ⟨h.locate.modify, ?_⟩
    change (t.locate n).2.rules.modify (t.locate n).1 (Rule.addProduction q) = Rule.push n q t.rules
    rw [← Rule.push_eq_modify h.locate.nodup_lhs hr hn, h.rules_locate, Rule.push_define]

theorem editAll {es : List (Edit Nonterminal)} (h : t.InStep) :
    (t.editAll es).InStep ∧ (t.editAll es).rules = Rule.editAll t.rules es := by
  induction es generalizing t with
  | nil => exact ⟨h, rfl⟩
  | cons e es ih =>
    obtain ⟨hedit, hrules⟩ := h.edit (e := e)
    obtain ⟨hrest, hall⟩ := ih hedit
    exact ⟨hrest, hall.trans (congrArg (Rule.editAll · es) hrules)⟩

end InStep

end IndexedRules

end CaptureGrammar
