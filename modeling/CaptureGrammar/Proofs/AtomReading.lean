import CaptureGrammar.Proofs.Digits
import CaptureGrammar.Proofs.Fitting
import CaptureGrammar.Proofs.Passage

/-!
Which trees are read, from which texts, and with what records: those that fit, from their passages.

Each reader has one such equivalence, given that of the reader for the inside of brackets.
-/
namespace CaptureGrammar.Pattern

variable {n : Nat} {r : Reader Pattern} {body : Body} {s t u : Cursor} {p q : Pattern}
  {ps : List Pattern} {id : Option GroupId} {close sigil : Char} {unclosed : Error}
  {refer : GroupId → Pattern} {c : Char} {rest : List Char}

/-- Inside brackets that are the outermost of `n`, the reader reads what fits there. -/
def ReadsInside (n : Nat) (r : Reader Pattern) : Prop :=
  ∀ p s t, r s = .ok p t ↔
    p.FitsInside n ∧ p.passage.Leads s t ∧ endsExpression t.rest = true

theorem reference_eq_ok : reference sigil refer s = .ok p t ↔
    ∃ c : Char, c.isDigit ∧ p = refer (digitValue c) ∧
      (Passage.mk [c, ')'] [] [p.completion]).Leads s t := by
  simp only [Passage.leads_of_no_group]
  constructor
  · intro h
    simp only [reference] at h
    split at h
    · cases h
    · next c rest hs =>
      split at h
      · next hc =>
        split at h
        · cases h
          exact ⟨c, hc, rfl, hs, rfl⟩
        · cases h
      · cases h
  · rintro ⟨c, hc, rfl, hs, ht⟩
    rw [ht]
    simp only [reference, hs, hc, List.cons_append, List.nil_append, if_true]
    rfl

theorem enclosed_eq_ok : enclosed r close unclosed s = .ok p t ↔
    ∃ u, r s = .ok p u ∧ (Passage.mk [close] [] []).Leads u t := by
  simp only [Passage.leads_of_no_group]
  constructor
  · intro h
    simp only [enclosed] at h
    split at h
    · cases h
    · next u hu =>
      split at h
      · cases h
      · next c rest hrest =>
        split at h
        · next hc =>
          cases h
          exact ⟨u, hu, hc ▸ hrest, rfl⟩
        · cases h
  · rintro ⟨u, hu, hrest, ht⟩
    rw [ht]
    simp only [enclosed, hu, hrest, List.cons_append, List.nil_append, if_true]
    rfl

/-- A body, its closing character and the record of the bracket. -/
theorem finish_enclosed_eq_ok (hr : ReadsInside n r) (hclose : endsExpression [close] = true)
    {f : Pattern → Pattern} {d : Completion} (hf : ∀ p, (f p).completion = d) :
    (do finish (f (← enclosed r close unclosed)) : Reader Pattern) s = .ok q t ↔
      ∃ p, q = f p ∧ p.FitsInside n ∧ (p.passage ++ ⟨[close], [], [d]⟩).Leads s t := by
  simp only [bind, EStateM.bind, Passage.leads_append]
  constructor
  · intro h
    split at h
    · next p u hu =>
      cases h
      obtain ⟨v, hv, hend⟩ := enclosed_eq_ok.mp hu
      obtain ⟨hfits, hlead, -⟩ := (hr _ _ _).mp hv
      obtain ⟨hrest, hu⟩ := Passage.leads_of_no_group.mp hend
      refine ⟨p, rfl, hfits, v, hlead, Passage.leads_of_no_group.mpr ⟨hrest, ?_⟩⟩
      rw [hu, hf]
      rfl
    · cases h
  · rintro ⟨p, rfl, hfits, v, hlead, hend⟩
    obtain ⟨hrest, ht⟩ := Passage.leads_of_no_group.mp hend
    have hends : endsExpression v.rest = true := by
      rw [hrest]
      exact hclose
    have hread : enclosed r close unclosed s = .ok p { v with rest := t.rest } :=
      enclosed_eq_ok.mpr
        ⟨v, (hr _ _ _).mpr ⟨hfits, hlead, hends⟩, Passage.leads_of_no_group.mpr ⟨hrest, rfl⟩⟩
    rw [hread, ht]
    simp only [finish, hf]
    rfl

theorem groupBody_eq_ok (hr : ReadsInside n r) : groupBody r id s = .ok q t ↔
    ∃ p, q = .group id p ∧ p.FitsInside n ∧
      (p.passage ++ ⟨[')'], [], [.group id]⟩).Leads s t :=
  finish_enclosed_eq_ok hr rfl fun _ => rfl

theorem starBody_eq_ok (hr : ReadsInside n r) : starBody r s = .ok q t ↔
    ∃ p, q = .many p ∧ p.FitsInside n ∧ (p.passage ++ ⟨['>'], [], [.star]⟩).Leads s t :=
  finish_enclosed_eq_ok hr rfl fun _ => rfl

/-! ### Atoms -/

theorem passage_exprRef (hc : c.isDigit) : (exprRef (digitValue c)).passage =
    ⟨['(', '?'], [], []⟩ ++ ⟨[c, ')'], [], [.exprRef (digitValue c)]⟩ := by
  simp [passage, Passage.append_def, spelling, toList_toString_digitValue hc, postorder,
    captures_eq, captureId?, children, capturesOfAll, nodesOfAll]

theorem passage_strRef (hc : c.isDigit) : (strRef (digitValue c)).passage =
    ⟨['(', '\\'], [], []⟩ ++ ⟨[c, ')'], [], [.strRef (digitValue c)]⟩ := by
  simp [passage, Passage.append_def, spelling, toList_toString_digitValue hc, postorder,
    captures_eq, captureId?, children, capturesOfAll, nodesOfAll]

/-- The start of an atom that opens no capturing group, and the rest of it. -/
theorem leads_of_start {cs : List Char} {w : Passage} (hs : s.rest = cs ++ rest)
    (h : w.Leads { s with rest } t) : (⟨cs, [], []⟩ ++ w : Passage).Leads s t :=
  Passage.leads_append.mpr ⟨_, Passage.leads_of_no_group.mpr ⟨hs, rfl⟩, h⟩

theorem fits_of_atom (hr : ReadsInside n r) (hs : endsSequence s.rest = false)
    (h : atom r s = .ok p t) : p.Fits n ∧ p.IsAtom ∧ p.passage.Leads s t := by
  simp only [atom] at h
  split at h
  · cases h
  · next rest hrest =>
    obtain ⟨c, hc, rfl, hlead⟩ := reference_eq_ok.mp h
    rw [passage_strRef hc]
    exact ⟨fits_strRef.mpr (digitValue_le_nine hc), trivial, leads_of_start hrest hlead⟩
  · next rest hrest =>
    obtain ⟨p, rfl, hfits, hlead⟩ := (groupBody_eq_ok hr).mp h
    rw [passage_group]
    exact ⟨fits_group.mpr ⟨hfits, fun h => by cases h⟩, trivial, leads_of_start hrest hlead⟩
  · next rest _ hrest =>
    obtain ⟨c, hc, rfl, hlead⟩ := reference_eq_ok.mp h
    rw [passage_exprRef hc]
    exact ⟨fits_exprRef.mpr (digitValue_le_nine hc), trivial, leads_of_start hrest hlead⟩
  · next rest hb _ hq hrest =>
    obtain ⟨p, rfl, hfits, hlead⟩ := (groupBody_eq_ok hr).mp h
    have hhead : ∀ c ∈ p.spelling.head?, c ≠ '?' ∧ c ≠ '\\' := by
      intro c hc
      obtain ⟨cs, hcs⟩ := List.head?_eq_some_iff.mp hc
      have htext : rest = (p.spelling ++ [')']) ++ t.rest := hlead.rest
      rw [hcs] at htext
      constructor
      · rintro rfl
        exact hq _ htext
      · rintro rfl
        exact hb _ htext
    rw [passage_group]
    exact ⟨fits_group.mpr ⟨hfits, fun _ => hhead⟩, trivial,
      Passage.leads_append.mpr
        ⟨{ s with rest, nextId := s.nextId + 1, opened := s.nextId :: s.opened },
          Passage.leads_of_group.mpr ⟨hrest, rfl, rfl⟩, hlead⟩⟩
  · next rest hrest =>
    obtain ⟨p, rfl, hfits, hlead⟩ := (starBody_eq_ok hr).mp h
    rw [many, passage_star]
    exact ⟨fits_star.mpr ⟨hfits, rfl, rfl⟩, trivial, leads_of_start hrest hlead⟩
  · next c rest _ _ _ hp hl hrest =>
    cases h
    rw [hrest] at hs
    simp only [endsSequence, Bool.or_eq_false_iff, beq_eq_false_iff_ne, ne_eq] at hs
    refine ⟨fits_char.mpr ?_, trivial, Passage.leads_of_no_group.mpr ⟨hrest, rfl⟩⟩
    simp only [delimiters, List.mem_cons, List.not_mem_nil, or_false, not_or]
    exact ⟨hp, hs.1.2, hl, hs.2, hs.1.1⟩

/-! The readers for the rest of an atom, told from its start. -/

theorem atom_strRef (h : s.rest = '(' :: '\\' :: rest) :
    atom r s = reference '\\' .strRef { s with rest } := by
  simp only [atom, h]

theorem atom_plain (h : s.rest = '(' :: '?' :: ':' :: rest) :
    atom r s = groupBody r none { s with rest } := by
  simp only [atom, h]

theorem atom_star (h : s.rest = '<' :: rest) : atom r s = starBody r { s with rest } := by
  simp only [atom, h]

theorem atom_exprRef (h : s.rest = '(' :: '?' :: rest) (hne : ∀ cs, rest ≠ ':' :: cs) :
    atom r s = reference '?' .exprRef { s with rest } := by
  simp only [atom, h]

theorem atom_capture (h : s.rest = '(' :: rest) (hb : ∀ cs, rest ≠ '\\' :: cs)
    (hq : ∀ cs, rest ≠ '?' :: cs) : atom r s = groupBody r (some s.nextId)
      { s with rest, nextId := s.nextId + 1, opened := s.nextId :: s.opened } := by
  simp only [atom, h]
  split <;> rename_i heq <;> cases heq
  · exact absurd rfl (hb _)
  · exact absurd rfl (hq _)
  · exact absurd rfl (hq _)
  · rfl
  · contradiction

theorem atom_char (h : s.rest = c :: rest) (hc : c ∉ delimiters) :
    atom r s = finish (.char c) { s with rest } := by
  simp only [delimiters, List.mem_cons, List.not_mem_nil, or_false, not_or] at hc
  simp only [atom, h]
  split <;> rename_i heq <;> cases heq
  · exact absurd rfl hc.1
  · exact absurd rfl hc.1
  · exact absurd rfl hc.1
  · exact absurd rfl hc.1
  · exact absurd rfl hc.2.2.1
  · rfl

theorem atom_of_fits (hr : ReadsInside n r) (hp : p.Fits n) (ha : p.IsAtom)
    (h : p.passage.Leads s t) : atom r s = .ok p t := by
  cases p with
  | char c =>
    obtain ⟨hs, ht⟩ := Passage.leads_of_no_group.mp h
    rw [atom_char hs (fits_char.mp hp), ht]
    rfl
  | group id p =>
    obtain ⟨hfits, hhead⟩ := fits_group.mp hp
    rw [passage_group] at h
    obtain ⟨u, hopen, hlead⟩ := Passage.leads_append.mp h
    cases id with
    | none =>
      obtain ⟨hs, hu⟩ := Passage.leads_of_no_group.mp hopen
      have hatom : atom r s = groupBody r none u := by
        rw [hu]
        exact atom_plain hs
      rw [hatom, groupBody_eq_ok hr]
      exact ⟨p, rfl, hfits, hlead⟩
    | some id =>
      obtain ⟨hs, rfl, hu⟩ := Passage.leads_of_group.mp hopen
      have hrest : u.rest = (p.spelling ++ [')']) ++ t.rest := hlead.rest
      have hfirst : ∀ c ∈ u.rest.head?, c ≠ '?' ∧ c ≠ '\\' := by
        rw [hrest, List.append_assoc, head?_spelling_append hfits.canonical]
        exact hhead rfl
      have hatom : atom r s = groupBody r (some s.nextId) u := by
        rw [hu]
        refine atom_capture hs ?_ ?_
        · intro cs hcs
          exact (hfirst '\\' (hcs ▸ rfl)).2 rfl
        · intro cs hcs
          exact (hfirst '?' (hcs ▸ rfl)).1 rfl
      rw [hatom, groupBody_eq_ok hr]
      exact ⟨p, rfl, hfits, hlead⟩
  | star p min max =>
    obtain ⟨hfits, rfl, rfl⟩ := fits_star.mp hp
    rw [passage_star] at h
    obtain ⟨u, hopen, hlead⟩ := Passage.leads_append.mp h
    obtain ⟨hs, hu⟩ := Passage.leads_of_no_group.mp hopen
    have hatom : atom r s = starBody r u := by
      rw [hu]
      exact atom_star hs
    rw [hatom, starBody_eq_ok hr]
    exact ⟨p, rfl, hfits, hlead⟩
  | exprRef id =>
    obtain ⟨c, hc, rfl⟩ := exists_digit (fits_exprRef.mp hp)
    rw [passage_exprRef hc] at h
    obtain ⟨u, hopen, hlead⟩ := Passage.leads_append.mp h
    obtain ⟨hs, hu⟩ := Passage.leads_of_no_group.mp hopen
    have hatom : atom r s = reference '?' .exprRef u := by
      rw [hu]
      -- What follows is a digit and so no colon, as in the start of a plain group.
      refine atom_exprRef hs fun cs hcs => ?_
      have hrest := hlead.rest
      rw [hcs] at hrest
      cases hrest
      cases hc
    rw [hatom, reference_eq_ok]
    exact ⟨c, hc, rfl, hlead⟩
  | strRef id =>
    obtain ⟨c, hc, rfl⟩ := exists_digit (fits_strRef.mp hp)
    rw [passage_strRef hc] at h
    obtain ⟨u, hopen, hlead⟩ := Passage.leads_append.mp h
    obtain ⟨hs, hu⟩ := Passage.leads_of_no_group.mp hopen
    have hatom : atom r s = reference '\\' .strRef u := by
      rw [hu]
      exact atom_strRef hs
    rw [hatom, reference_eq_ok]
    exact ⟨c, hc, rfl, hlead⟩
  | concat | alt => cases ha

end CaptureGrammar.Pattern
