import CaptureGrammar.Grammar.Basic

/-! What defining nonterminals and adding productions makes of a table of rules. -/
namespace CaptureGrammar

/-- A change to a table: a nonterminal is to have a rule, or is to have one more production. -/
inductive Edit (ν : Type) where
  | define (n : ν)
  | push (n : ν) (q : Production ν)

variable {ν : Type}

def Edit.target : Edit ν → ν
  | .define n | .push n _ => n

/-- Whether a change adds a production. -/
def Edit.isPush : Edit ν → Bool
  | .define _ => false
  | .push _ _ => true

/-- The nonterminals on the right-hand sides of a rule, in order of occurrence. -/
def Rule.mentioned (r : Rule ν) : List ν := r.productions.flatMap (·.filterMap Symbol.nonterminal?)

/-- The nonterminals that a change puts on a right-hand side. -/
def Edit.mentioned : Edit ν → List ν
  | .define _ => []
  | .push _ q => q.filterMap Symbol.nonterminal?

theorem flatMap_mentioned_filter_isPush (es : List (Edit ν)) :
    (es.filter Edit.isPush).flatMap Edit.mentioned = es.flatMap Edit.mentioned := by
  induction es with
  | nil => rfl
  | cons e es ih =>
    cases e with
    | define n => exact ih
    | push n q => exact congrArg (q.filterMap Symbol.nonterminal? ++ ·) ih

namespace Rule

variable [DecidableEq ν] {n m : ν} {q : Production ν} {e : Edit ν} {rs : List (Rule ν)}

/-- The productions of the first rule for `n`. -/
def productionsOf (n : ν) (rs : List (Rule ν)) : List (Production ν) :=
  (rs.find? (·.lhs = n)).elim [] Rule.productions

def edit (rs : List (Rule ν)) : Edit ν → List (Rule ν)
  | .define n => define n rs
  | .push n q => push n q rs

/-- The table after some changes in a row. -/
def editAll (rs : List (Rule ν)) (es : List (Edit ν)) : List (Rule ν) := es.foldl edit rs

/-- The productions that some changes give to `n`, in order. -/
def pushedTo (n : ν) (es : List (Edit ν)) : List (Production ν) :=
  es.filterMap fun
    | .define _ => none
    | .push m q => if m = n then some q else none

@[simp] theorem editAll_nil : editAll rs [] = rs := rfl

@[simp] theorem editAll_cons {es : List (Edit ν)} :
    editAll rs (e :: es) = editAll (edit rs e) es := rfl

@[simp] theorem editAll_append {es fs : List (Edit ν)} :
    editAll rs (es ++ fs) = editAll (editAll rs es) fs := List.foldl_append

theorem mem_pushedTo {es : List (Edit ν)} : q ∈ pushedTo n es ↔ .push n q ∈ es := by
  constructor
  · intro h
    obtain ⟨e, he, hq⟩ := List.mem_filterMap.mp h
    cases e with
    | define m => cases hq
    | push m r =>
      by_cases hm : m = n
      · subst hm
        simp only [if_true, Option.some.injEq] at hq
        exact hq ▸ he
      · simp [hm] at hq
  · intro h
    exact List.mem_filterMap.mpr ⟨_, h, by simp⟩

theorem map_lhs_define : (define n rs).map lhs =
    if n ∈ rs.map lhs then rs.map lhs else rs.map lhs ++ [n] := by
  induction rs with
  | nil => rfl
  | cons r rs ih =>
    by_cases hr : r.lhs = n
    · simp [define, hr]
    · simp only [define, hr, if_false, List.map_cons, ih, List.mem_cons, Ne.symm hr, false_or]
      split <;> simp

theorem map_lhs_push : (push n q rs).map lhs =
    if n ∈ rs.map lhs then rs.map lhs else rs.map lhs ++ [n] := by
  induction rs with
  | nil => rfl
  | cons r rs ih =>
    by_cases hr : r.lhs = n
    · simp [push, hr]
    · simp only [push, hr, if_false, List.map_cons, ih, List.mem_cons, Ne.symm hr, false_or]
      split <;> simp

/-- A change never removes a rule. It adds one, at the end, for a nonterminal without any. -/
theorem map_lhs_edit : (edit rs e).map lhs =
    if e.target ∈ rs.map lhs then rs.map lhs else rs.map lhs ++ [e.target] := by
  cases e with
  | define n => exact map_lhs_define
  | push n q => exact map_lhs_push

theorem nodup_edit (h : (rs.map lhs).Nodup) : ((edit rs e).map lhs).Nodup := by
  rw [map_lhs_edit]
  split
  · exact h
  · next hn =>
    rw [List.nodup_append]
    refine ⟨h, by simp, ?_⟩
    intro m hm k hk
    rw [List.mem_singleton] at hk
    rintro rfl
    exact hn (hk ▸ hm)

theorem nodup_editAll {es : List (Edit ν)} (h : (rs.map lhs).Nodup) :
    ((editAll rs es).map lhs).Nodup := by
  induction es generalizing rs with
  | nil => exact h
  | cons e es ih => exact ih (nodup_edit h)

theorem eraseDups_concat {l : List ν} : (l ++ [n]).eraseDups =
    if n ∈ l then l.eraseDups else l.eraseDups ++ [n] := by
  rw [List.eraseDups_append]
  by_cases hn : n ∈ l <;> simp [List.cons_removeAll, List.eraseDups_cons, hn]

/-- The rules stand in the order in which their nonterminals were first changed. -/
theorem map_lhs_editAll {es : List (Edit ν)} {l : List ν} (h : rs.map lhs = l.eraseDups) :
    (editAll rs es).map lhs = (l ++ es.map Edit.target).eraseDups := by
  induction es generalizing rs l with
  | nil => rw [editAll_nil, h, List.map_nil, List.append_nil]
  | cons e es ih =>
    have hedit : (edit rs e).map lhs = (l ++ [e.target]).eraseDups := by
      rw [map_lhs_edit, h, eraseDups_concat]
      simp only [List.mem_eraseDups]
    rw [editAll_cons, ih hedit, List.append_assoc]
    rfl

theorem productionsOf_cons {r : Rule ν} :
    productionsOf n (r :: rs) = if r.lhs = n then r.productions else productionsOf n rs := by
  by_cases hr : r.lhs = n <;> simp [productionsOf, hr]

theorem productionsOf_define : productionsOf m (define n rs) = productionsOf m rs := by
  induction rs with
  | nil => by_cases hn : n = m <;> simp [define, productionsOf, hn]
  | cons r rs ih =>
    rw [define]
    split
    · rfl
    · rw [productionsOf_cons, productionsOf_cons, ih]

theorem productionsOf_push :
    productionsOf m (push n q rs) = productionsOf m rs ++ if n = m then [q] else [] := by
  induction rs with
  | nil => by_cases hn : n = m <;> simp [push, productionsOf, hn]
  | cons r rs ih =>
    rw [push]
    split
    · next hr =>
      subst hr
      rw [productionsOf_cons, productionsOf_cons]
      split <;> simp
    · next hr =>
      rw [productionsOf_cons, productionsOf_cons, ih]
      split
      · next hm => simp [← hm, Ne.symm hr]
      · rfl

/-- After some changes, each nonterminal has its old productions and then what was pushed to it. -/
theorem productionsOf_editAll {es : List (Edit ν)} :
    productionsOf m (editAll rs es) = productionsOf m rs ++ pushedTo m es := by
  induction es generalizing rs with
  | nil => simp [pushedTo]
  | cons e es ih =>
    rw [editAll_cons, ih]
    cases e with
    | define n => simp [edit, productionsOf_define, pushedTo]
    | push n q =>
      simp only [edit, productionsOf_push, pushedTo, List.filterMap_cons]
      split <;> simp

/-- Where no nonterminal has two rules, a table is told from its nonterminals and their
productions. -/
theorem eq_map_productionsOf (h : (rs.map lhs).Nodup) :
    rs = (rs.map lhs).map fun n => ⟨n, productionsOf n rs⟩ := by
  induction rs with
  | nil => rfl
  | cons r rs ih =>
    rw [List.map_cons, List.nodup_cons] at h
    have hrest : ∀ n ∈ rs.map lhs, (⟨n, productionsOf n (r :: rs)⟩ : Rule ν) =
        ⟨n, productionsOf n rs⟩ := by
      intro n hn
      rw [productionsOf_cons, if_neg]
      rintro rfl
      exact h.1 hn
    rw [List.map_cons, List.map_cons, List.map_congr_left hrest, ← ih h.2, productionsOf_cons,
      if_pos rfl]

/-- Where no nonterminal has two rules, the first rule for `n` is the only one. -/
theorem mem_productionsOf (h : (rs.map lhs).Nodup) :
    q ∈ productionsOf n rs ↔ ∃ r ∈ rs, r.lhs = n ∧ q ∈ r.productions := by
  induction rs with
  | nil => simp [productionsOf]
  | cons r rs ih =>
    rw [List.map_cons, List.nodup_cons] at h
    rw [productionsOf_cons]
    split
    · next hr =>
      constructor
      · intro hq
        exact ⟨r, List.mem_cons_self, hr, hq⟩
      · rintro ⟨t, ht, htn, hq⟩
        rcases List.mem_cons.mp ht with rfl | ht
        · exact hq
        · exact (h.1 (List.mem_map.mpr ⟨t, ht, htn.trans hr.symm⟩)).elim
    · next hr => simp [ih h.2, hr]

/-- Where no nonterminal has two rules, looking one up finds the rule. -/
theorem find?_lhs (h : (rs.map lhs).Nodup) {r : Rule ν} (hr : r ∈ rs) :
    rs.find? (·.lhs = r.lhs) = some r := by
  induction rs with
  | nil => cases hr
  | cons t rs ih =>
    rw [List.map_cons, List.nodup_cons] at h
    rcases List.mem_cons.mp hr with rfl | hr
    · simp
    · have hne : t.lhs ≠ r.lhs := by
        intro heq
        exact h.1 (List.mem_map.mpr ⟨r, hr, heq.symm⟩)
      rw [List.find?_cons_of_neg (by simpa using hne)]
      exact ih h.2 hr

/-! ### Mentions -/

theorem mentioned_define : (define n rs).flatMap mentioned = rs.flatMap mentioned := by
  induction rs with
  | nil => rfl
  | cons r rs ih =>
    rw [define]
    split
    · rfl
    · rw [List.flatMap_cons, List.flatMap_cons, ih]

theorem mentioned_push : ((push n q rs).flatMap mentioned).Perm
    (rs.flatMap mentioned ++ q.filterMap Symbol.nonterminal?) := by
  induction rs with
  | nil => simp [push, mentioned]
  | cons r rs ih =>
    rw [push]
    split
    · simp only [List.flatMap_cons, mentioned, List.flatMap_append, List.flatMap_nil,
        List.append_nil, List.append_assoc]
      exact List.perm_append_comm.append_left _
    · rw [List.flatMap_cons, List.flatMap_cons, List.append_assoc]
      exact ih.append_left _

/-- After some changes, the table mentions what it did before and what was pushed. -/
theorem mentioned_editAll {es : List (Edit ν)} : ((editAll rs es).flatMap mentioned).Perm
    (rs.flatMap mentioned ++ es.flatMap Edit.mentioned) := by
  induction es generalizing rs with
  | nil => simp
  | cons e es ih =>
    rw [editAll_cons, List.flatMap_cons, ← List.append_assoc]
    apply ih.trans
    apply List.Perm.append_right
    cases e with
    | define n => simp [edit, mentioned_define, Edit.mentioned]
    | push n q => exact mentioned_push

end Rule

end CaptureGrammar
