import CaptureGrammar.Proofs.AtomReading

/-!
Which trees are read as sequences and expressions.

A level of brackets reads what fits there if the levels inside it do, so every level does.
-/
namespace CaptureGrammar.Pattern

variable {n : Nat} {body : Body} {s t u : Cursor} {p : Pattern} {ps : List Pattern}
  {rest : List Char}

/-! ### Sequences -/

theorem atoms_of_atom (hs : endsSequence s.rest = false) (hp : atom body.read s = .ok p u)
    (hps : atoms body u = .ok ps t) : atoms body s = .ok (p :: ps) t := by
  rw [atoms, hs]
  simp only [Bool.false_eq_true, if_false]
  split
  · next h => cases h.symm.trans hp
  · next h =>
    cases h.symm.trans hp
    rw [hps]

theorem fits_of_atoms (hr : ReadsInside n body.read) (h : atoms body s = .ok ps t) :
    (∀ p ∈ ps, p.Fits n ∧ p.IsAtom) ∧ (passageOfAll ps).Leads s t ∧
      endsSequence t.rest = true := by
  fun_induction atoms body s generalizing ps t with
  | case1 s hs =>
    cases h
    exact ⟨List.forall_mem_nil _, Passage.leads_empty.mpr rfl, hs⟩
  | case2 => cases h
  | case3 => cases h
  | case4 s hs p u hu qs v hv ih =>
    cases h
    obtain ⟨hfits, hatom, hlead⟩ := fits_of_atom hr (Bool.not_eq_true _ ▸ hs) hu
    obtain ⟨hall, hleads, hend⟩ := ih hv
    refine ⟨List.forall_mem_cons.mpr ⟨⟨hfits, hatom⟩, hall⟩, ?_, hend⟩
    rw [passageOfAll_cons]
    exact Passage.leads_append.mpr ⟨u, hlead, hleads⟩

theorem atoms_of_fits (hr : ReadsInside n body.read) (hps : ∀ p ∈ ps, p.Fits n ∧ p.IsAtom)
    (hlead : (passageOfAll ps).Leads s t) (hend : endsSequence t.rest = true) :
    atoms body s = .ok ps t := by
  induction ps generalizing s with
  | nil =>
    cases Passage.leads_empty.mp hlead
    rw [atoms, if_pos hend]
  | cons p ps ih =>
    obtain ⟨⟨hfits, hatom⟩, hps⟩ := List.forall_mem_cons.mp hps
    rw [passageOfAll_cons] at hlead
    obtain ⟨u, hp, hu⟩ := Passage.leads_append.mp hlead
    have hs : endsSequence s.rest = false := by
      rw [hp.rest]
      exact endsSequence_spelling hfits.1 _
    exact atoms_of_atom hs (atom_of_fits hr hfits hatom hp) (ih hps hu)

theorem sequence_eq_ok (hr : ReadsInside n body.read) : sequence body s = .ok p t ↔
    p.Fits n ∧ p.IsBranch ∧ p.passage.Leads s t ∧ endsSequence t.rest = true := by
  constructor
  · intro h
    simp only [sequence] at h
    split at h
    · cases h
    · cases h
    · next hs =>
      cases h
      obtain ⟨hps, hlead, hend⟩ := fits_of_atoms hr hs
      obtain ⟨hfits, hatom⟩ := hps _ List.mem_cons_self
      rw [passageOfAll_singleton] at hlead
      exact ⟨hfits, hatom.isBranch, hlead, hend⟩
    · next hs =>
      cases h
      obtain ⟨hps, hlead, hend⟩ := fits_of_atoms hr hs
      refine ⟨fits_concat.mpr ⟨by simp, hps⟩, trivial, ?_, hend⟩
      rw [passage_concat]
      exact Passage.leads_mark.mpr ⟨_, hlead, rfl⟩
  · rintro ⟨hfits, hbranch, hlead, hend⟩
    rcases hbranch.isAtom_or with hatom | ⟨ps, rfl⟩
    · rw [← passageOfAll_singleton] at hlead
      have hs := atoms_of_fits hr (List.forall_mem_singleton.mpr ⟨hfits, hatom⟩) hlead hend
      simp only [sequence, hs]
    · obtain ⟨hlen, hps⟩ := fits_concat.mp hfits
      rw [passage_concat] at hlead
      obtain ⟨u, hu, rfl⟩ := Passage.leads_mark.mp hlead
      have hs := atoms_of_fits hr hps hu hend
      obtain ⟨p, q, ps, rfl⟩ := exists_cons_cons_of_length hlen
      simp only [sequence, hs]
      rfl

/-! ### Expressions -/

theorem branches_of_bar (hp : sequence body s = .ok p u) (hu : u.rest = '|' :: rest)
    (hps : branches body { u with rest } = .ok ps t) : branches body s = .ok (p :: ps) t := by
  rw [branches]
  split
  · next h => cases h.symm.trans hp
  · next h =>
    cases h.symm.trans hp
    split
    · next hrest =>
      cases hrest.symm.trans hu
      rw [hps]
    · next hne => exact absurd hu (hne _)

theorem branches_of_last (hp : sequence body s = .ok p t) (hend : endsExpression t.rest = true) :
    branches body s = .ok [p] t := by
  rw [branches]
  split
  · next h => cases h.symm.trans hp
  · next h =>
    cases h.symm.trans hp
    split
    · next hrest =>
      rw [hrest] at hend
      cases hend
    · rfl

theorem fits_of_branches (hr : ReadsInside n body.read) (h : branches body s = .ok ps t) :
    ps ≠ [] ∧ (∀ p ∈ ps, p.Fits n ∧ p.IsBranch) ∧ (passageOfBranches ps).Leads s t ∧
      endsExpression t.rest = true := by
  fun_induction branches body s generalizing ps t with
  | case1 => cases h
  | case2 => cases h
  | case3 s p u hu rest hrest qs v hv ih =>
    cases h
    obtain ⟨hfits, hbranch, hlead, -⟩ := (sequence_eq_ok hr).mp hu
    obtain ⟨hne, hqs, hleads, hend⟩ := ih hv
    refine ⟨List.cons_ne_nil _ _, List.forall_mem_cons.mpr ⟨⟨hfits, hbranch⟩, hqs⟩, ?_, hend⟩
    obtain ⟨q, qs, rfl⟩ := List.exists_cons_of_ne_nil hne
    rw [passageOfBranches_cons]
    exact Passage.leads_append.mpr ⟨u, hlead, leads_of_start hrest hleads⟩
  | case4 s p u hu hne =>
    cases h
    obtain ⟨hfits, hbranch, hlead, hend⟩ := (sequence_eq_ok hr).mp hu
    refine ⟨List.cons_ne_nil _ _, List.forall_mem_singleton.mpr ⟨hfits, hbranch⟩, ?_, ?_⟩
    · rwa [passageOfBranches_singleton]
    · rcases endsSequence_iff.mp hend with hend | ⟨rest, hrest⟩
      · exact hend
      · exact absurd hrest (hne _)

theorem branches_of_fits (hr : ReadsInside n body.read) (hne : ps ≠ [])
    (hps : ∀ p ∈ ps, p.Fits n ∧ p.IsBranch) (hlead : (passageOfBranches ps).Leads s t)
    (hend : endsExpression t.rest = true) : branches body s = .ok ps t := by
  induction ps generalizing s with
  | nil => exact absurd rfl hne
  | cons p ps ih =>
    obtain ⟨⟨hfits, hbranch⟩, hps⟩ := List.forall_mem_cons.mp hps
    cases ps with
    | nil =>
      rw [passageOfBranches_singleton] at hlead
      have hp : sequence body s = .ok p t :=
        (sequence_eq_ok hr).mpr ⟨hfits, hbranch, hlead, endsSequence_of_endsExpression hend⟩
      exact branches_of_last hp hend
    | cons q ps =>
      rw [passageOfBranches_cons] at hlead
      obtain ⟨u, hp, hbar⟩ := Passage.leads_append.mp hlead
      obtain ⟨v, hbar, hleads⟩ := Passage.leads_append.mp hbar
      obtain ⟨hu, hv⟩ := Passage.leads_of_no_group.mp hbar
      have hend : endsSequence u.rest = true := by
        rw [hu]
        rfl
      have hp : sequence body s = .ok p u :=
        (sequence_eq_ok hr).mpr ⟨hfits, hbranch, hp, hend⟩
      exact branches_of_bar hp hu (hv ▸ ih (List.cons_ne_nil q ps) hps hleads)

theorem expression_eq_ok (hr : ReadsInside n body.read) : expression body s = .ok p t ↔
    p.Fits n ∧ p.passage.Leads s t ∧ endsExpression t.rest = true := by
  constructor
  · intro h
    simp only [expression] at h
    split at h
    · cases h
    · next hs =>
      cases h
      obtain ⟨-, hps, hlead, hend⟩ := fits_of_branches hr hs
      rw [passageOfBranches_singleton] at hlead
      exact ⟨(hps _ List.mem_cons_self).1, hlead, hend⟩
    · next ps u hsingle hs =>
      cases h
      obtain ⟨hne, hps, hlead, hend⟩ := fits_of_branches hr hs
      have hlen : 2 ≤ ps.length := by
        rcases ps with _ | ⟨p, _ | ⟨q, ps⟩⟩
        · exact absurd rfl hne
        · exact absurd rfl (hsingle p)
        · exact Nat.le_add_left 2 _
      refine ⟨fits_alt.mpr ⟨hlen, hps⟩, ?_, hend⟩
      rw [passage_alt]
      exact Passage.leads_mark.mpr ⟨u, hlead, rfl⟩
  · rintro ⟨hfits, hlead, hend⟩
    rcases p.isBranch_or with hbranch | ⟨ps, rfl⟩
    · rw [← passageOfBranches_singleton] at hlead
      have hs := branches_of_fits hr (List.cons_ne_nil p [])
        (List.forall_mem_singleton.mpr ⟨hfits, hbranch⟩) hlead hend
      simp only [expression, hs]
    · obtain ⟨hlen, hps⟩ := fits_alt.mp hfits
      rw [passage_alt] at hlead
      obtain ⟨u, hu, rfl⟩ := Passage.leads_mark.mp hlead
      obtain ⟨p, q, ps, rfl⟩ := exists_cons_cons_of_length hlen
      have hs := branches_of_fits hr (List.cons_ne_nil p _) hps hu hend
      simp only [expression, hs]
      rfl

/-! ### Whole texts -/

theorem readsInside_interior (n : Nat) : ReadsInside n (interior n).read := by
  induction n with
  | zero =>
    intro p s t
    constructor
    · intro h
      cases h
    · rintro ⟨⟨m, hm, -⟩, -⟩
      cases hm
  | succ n ih =>
    intro p s t
    have hinside : p.FitsInside (n + 1) ↔ p.Fits n := by
      rw [fitsInside_iff, Nat.succ_le_succ_iff]
      rfl
    rw [hinside]
    exact expression_eq_ok ih

theorem readAll_eq_ok {cs : List Char} : readAll cs = .ok p t ↔
    p.Fits maxNesting ∧ p.passage.Leads { rest := cs } t ∧ t.rest = [] := by
  have hread := expression_eq_ok (s := { rest := cs }) (p := p) (t := t)
    (readsInside_interior maxNesting)
  constructor
  · intro h
    simp only [readAll] at h
    split at h
    · cases h
    · next hp =>
      split at h
      · next hrest =>
        cases h
        obtain ⟨hfits, hlead, -⟩ := hread.mp hp
        exact ⟨hfits, hlead, hrest⟩
      · cases h
  · rintro ⟨hfits, hlead, hrest⟩
    have hp := hread.mpr ⟨hfits, hlead, hrest ▸ rfl⟩
    simp only [readAll, hp, hrest]

end CaptureGrammar.Pattern
