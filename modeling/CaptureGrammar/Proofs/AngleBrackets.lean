import CaptureGrammar.Proofs.Openings

/-!
The angle brackets of a tree's text.

Each of them is the first or the last character of a repetition in the tree, at the place where the
bracket stands.
-/
namespace CaptureGrammar.Pattern

variable {i : Nat} {d : Char} {cs u v w rest : List Char} {p : Pattern} {ps : List Pattern}
  {x : Placed} {xs ys : List Placed}

/-! ### Nodes in their places -/

theorem self_mem_placed (i : Nat) (p : Pattern) : ⟨i, p⟩ ∈ placed i p := by
  obtain ⟨gap, j, hplaced⟩ := exists_placed_eq i p
  rw [hplaced]
  exact List.mem_cons_self

theorem node_mem_nodes (h : x ∈ placed i p) : x.node ∈ p.nodes := by
  rw [← map_node_placed p i]
  exact List.mem_map_of_mem h

/-- The nodes of a node in its place are in their places in the whole. -/
theorem placed_subset_of_mem (p : Pattern) :
    ∀ i x, x ∈ placed i p → placed x.start x.node ⊆ placed i p := by
  refine forestInduction
    (fun ps => ∀ gap i x, x ∈ placedOfAll gap i ps → placed x.start x.node ⊆ placedOfAll gap i ps)
    ?node ?nil ?cons p
  case node =>
    intro p ih i x hx
    obtain ⟨gap, j, hplaced⟩ := exists_placed_eq i p
    rw [hplaced] at hx
    rcases List.mem_cons.mp hx with rfl | hx
    · exact List.Subset.refl _
    · rw [hplaced]
      exact List.subset_cons_of_subset _ (ih gap j x hx)
  case nil =>
    intro gap i x hx
    cases hx
  case cons =>
    intro p ps ihp ihps gap i x hx
    rcases List.mem_append.mp hx with hx | hx
    · exact List.subset_append_of_subset_left _ (ihp i x hx)
    · exact List.subset_append_of_subset_right _ (ihps gap _ x hx)

/-! ### The places of brackets -/

/-- `Angle x k d` says that `x` is a repetition that has the angle bracket `d` at place `k`. -/
inductive Angle : Placed → Nat → Char → Prop
  | opening (i : Nat) (p : Pattern) : Angle ⟨i, many p⟩ i '<'
  | closing (i : Nat) (p : Pattern) : Angle ⟨i, many p⟩ (i + p.spelling.length + 1) '>'

/-- Whether each angle bracket of the text `cs`, which starts at place `i`, is one of a repetition
among the nodes. -/
def AnglesIn (i : Nat) (cs : List Char) (xs : List Placed) : Prop :=
  ∀ u d rest, cs = u ++ d :: rest → d = '<' ∨ d = '>' → ∃ x ∈ xs, Angle x (i + u.length) d

namespace AnglesIn

theorem mono (h : AnglesIn i cs xs) (hsub : xs ⊆ ys) : AnglesIn i cs ys := by
  intro u d rest ht hd
  obtain ⟨x, hx, hangle⟩ := h u d rest ht hd
  exact ⟨x, hsub hx, hangle⟩

theorem append (hv : AnglesIn i v xs) (hw : AnglesIn (i + v.length) w ys) :
    AnglesIn i (v ++ w) (xs ++ ys) := by
  intro u d rest ht hd
  have hright : ∀ y, u = v ++ y → w = y ++ d :: rest →
      ∃ x ∈ xs ++ ys, Angle x (i + u.length) d := by
    rintro y rfl hy
    obtain ⟨x, hx, hangle⟩ := hw y d rest hy hd
    rw [List.length_append, ← Nat.add_assoc]
    exact ⟨x, List.mem_append_right xs hx, hangle⟩
  rcases List.append_eq_append_iff.mp ht with ⟨y, hu, hy⟩ | ⟨y, hy, hrest⟩
  · exact hright y hu hy
  · -- The bracket stands in the first text, or first in the second.
    cases y with
    | nil => exact hright [] (by simpa using hy.symm) (by simpa using hrest.symm)
    | cons c y =>
      cases hrest
      obtain ⟨x, hx, hangle⟩ := hv u d y hy hd
      exact ⟨x, List.mem_append_left ys hx, hangle⟩

theorem of_not_mem (hopen : '<' ∉ cs) (hclose : '>' ∉ cs) : AnglesIn i cs xs := by
  rintro u d rest rfl (rfl | rfl)
  · exact absurd (List.mem_append_right u List.mem_cons_self) hopen
  · exact absurd (List.mem_append_right u List.mem_cons_self) hclose

/-- Text without angle brackets may stand around. -/
theorem enclose (hu : '<' ∉ u ∧ '>' ∉ u) (hw : '<' ∉ w ∧ '>' ∉ w)
    (h : AnglesIn (i + u.length) cs xs) : AnglesIn i (u ++ (cs ++ w)) xs := by
  have hstart : AnglesIn i u [] := .of_not_mem hu.1 hu.2
  have hend : AnglesIn (i + u.length + cs.length) w [] := .of_not_mem hw.1 hw.2
  refine (hstart.append (h.append hend)).mono ?_
  rw [List.nil_append, List.append_nil]
  exact List.Subset.refl xs

theorem singleton (h : Angle x i d) : AnglesIn i [d] [x] := by
  intro u c rest ht _
  obtain ⟨rfl, hc⟩ := List.append_eq_singleton_iff.mp ht.symm |>.resolve_right (by simp)
  cases hc
  exact ⟨x, List.mem_singleton_self x, h⟩

end AnglesIn

theorem anglesIn_placedOfAll (h : ∀ p ∈ ps, ∀ i, AnglesIn i p.spelling (placed i p)) :
    AnglesIn i (spellingOfAll ps) (placedOfAll 0 i ps) := by
  induction ps generalizing i with
  | nil => exact .of_not_mem List.not_mem_nil List.not_mem_nil
  | cons p ps ih =>
    obtain ⟨hp, hps⟩ := List.forall_mem_cons.mp h
    exact (hp i).append (ih hps)

theorem anglesIn_placedOfBranches (h : ∀ p ∈ ps, ∀ i, AnglesIn i p.spelling (placed i p)) :
    AnglesIn i (spellingOfBranches ps) (placedOfAll 1 i ps) := by
  induction ps generalizing i with
  | nil => exact .of_not_mem List.not_mem_nil List.not_mem_nil
  | cons p ps ih =>
    obtain ⟨hp, hps⟩ := List.forall_mem_cons.mp h
    cases ps with
    | nil =>
      rw [placedOfAll, spellingOfBranches]
      exact (hp i).mono (List.subset_append_left _ _)
    | cons q ps =>
      have hbar : AnglesIn (i + p.spelling.length) ['|'] [] :=
        .of_not_mem (by decide) (by decide)
      exact (hp i).append (hbar.append (ih hps))

theorem anglesIn_star (h : AnglesIn (i + 1) p.spelling (placed (i + 1) p)) :
    AnglesIn i (many p).spelling (placed i (many p)) := by
  have hopen : AnglesIn i ['<'] [⟨i, many p⟩] := .singleton (.opening i p)
  have hclose : AnglesIn (i + 1 + p.spelling.length) ['>'] [⟨i, many p⟩] := by
    rw [Nat.add_right_comm]
    exact .singleton (.closing i p)
  refine (hopen.append (h.append hclose)).mono ?_
  intro x hx
  simp only [List.mem_append, List.mem_singleton] at hx
  rcases hx with rfl | hx | rfl
  · exact List.mem_cons_self
  · exact List.mem_cons_of_mem _ hx
  · exact List.mem_cons_self

theorem anglesIn_placed (h : p.IsCanonical) : ∀ i, AnglesIn i p.spelling (placed i p) := by
  induction p using childrenInduction with
  | node p ih =>
    intro i
    cases p with
    | char c =>
      refine .of_not_mem (fun hmem => h ?_) (fun hmem => h ?_)
      all_goals
        rw [← List.mem_singleton.mp hmem]
        decide
    | concat ps =>
      have hall := allCanonical_iff.mp h.2.1
      have hparts : AnglesIn i (spellingOfAll ps) (placedOfAll 0 i ps) :=
        anglesIn_placedOfAll fun p hp => ih p hp (hall p hp)
      exact hparts.mono (List.subset_cons_self _ _)
    | alt ps =>
      have hall := allCanonical_iff.mp h.2.1
      have hparts : AnglesIn i (spellingOfBranches ps) (placedOfAll 1 i ps) :=
        anglesIn_placedOfBranches fun p hp => ih p hp (hall p hp)
      exact hparts.mono (List.subset_cons_self _ _)
    | group id p =>
      have hp := ih p List.mem_cons_self h.1
      cases id with
      | some id =>
        have hbody := (hp (i + 1)).enclose (u := ['(']) (w := [')']) (by decide) (by decide)
        exact hbody.mono (List.subset_cons_self _ _)
      | none =>
        have hbody := (hp (i + 3)).enclose (u := ['(', '?', ':']) (w := [')']) (by decide)
          (by decide)
        exact hbody.mono (List.subset_cons_self _ _)
    | star p min max =>
      obtain ⟨hp, rfl, rfl⟩ := h
      exact anglesIn_star (ih p List.mem_cons_self hp (i + 1))
    | exprRef id | strRef id =>
      obtain ⟨c, hc, rfl⟩ := exists_digit h
      have hopen : '<' ≠ c := ne_of_isDigit hc rfl
      have hclose : '>' ≠ c := ne_of_isDigit hc rfl
      exact .of_not_mem (by simp [spelling, toList_toString_digitValue hc, hopen])
        (by simp [spelling, toList_toString_digitValue hc, hclose])

/-! ### Repetitions found from their brackets -/

theorem exists_star_of_opening (h : p.IsCanonical) (ht : p.spelling = u ++ '<' :: rest) :
    ∃ q rest', rest = q.spelling ++ '>' :: rest' ∧ ⟨u.length, many q⟩ ∈ placed 0 p := by
  obtain ⟨x, hx, hangle⟩ := anglesIn_placed h 0 u '<' rest ht (.inl rfl)
  obtain ⟨before, after, hspell, hstart⟩ := standIn_placed p 0 x hx
  generalize hk : 0 + u.length = k at hangle
  cases hangle with
  | opening k q =>
    rw [Nat.zero_add] at hk hstart
    rw [ht, List.append_assoc] at hspell
    obtain ⟨rfl, hrest⟩ := List.append_inj hspell (hk.trans hstart)
    refine ⟨q, after, ?_, hk ▸ hx⟩
    simpa [many, spelling] using hrest

theorem exists_star_of_closing (h : p.IsCanonical) (ht : p.spelling = u ++ '>' :: rest) :
    ∃ v q, u = v ++ '<' :: q.spelling ∧ ⟨v.length, many q⟩ ∈ placed 0 p := by
  obtain ⟨x, hx, hangle⟩ := anglesIn_placed h 0 u '>' rest ht (.inr rfl)
  obtain ⟨before, after, hspell, hstart⟩ := standIn_placed p 0 x hx
  generalize hk : 0 + u.length = k at hangle
  cases hangle with
  | closing i q =>
    rw [Nat.zero_add] at hk hstart
    change i = before.length at hstart
    have hsplit : u ++ '>' :: rest = (before ++ '<' :: q.spelling) ++ '>' :: after := by
      rw [← ht, hspell]
      simp [many, spelling]
    have hlen : u.length = (before ++ '<' :: q.spelling).length := by
      rw [hk, hstart, List.length_append, List.length_cons, Nat.add_assoc]
    exact ⟨before, q, (List.append_inj hsplit hlen).1, hstart ▸ hx⟩

/-! ### The first atom -/

theorem endsExpression_spelling (h : p.IsCanonical) (cs : List Char) :
    endsExpression (p.spelling ++ cs) = false := by
  cases hend : endsExpression (p.spelling ++ cs) with
  | false => rfl
  | true =>
    rw [← endsSequence_spelling h cs]
    exact (endsSequence_of_endsExpression hend).symm

/-- What the text of a tree begins with is an atom. Unless the tree is the atom, an expression does
not end behind it. -/
theorem exists_first_atom (h : p.IsCanonical) (i : Nat) : ∃ q rest, q.IsAtom ∧
    ⟨i, q⟩ ∈ placed i p ∧ p.spelling = q.spelling ++ rest ∧
      (p = q ∨ endsExpression rest = false) := by
  induction p using childrenInduction with
  | node p ih =>
    cases p with
    | concat ps =>
      obtain ⟨hlen, hall, hatoms⟩ := h
      obtain ⟨p, q, ps, rfl⟩ := exists_cons_cons_of_length hlen
      have hp : p.IsAtom := isAtom_iff.mpr (hatoms p List.mem_cons_self)
      have hplaced : ⟨i, p⟩ ∈ placed i (concat (p :: q :: ps)) :=
        List.mem_cons_of_mem _ (List.mem_append_left _ (self_mem_placed i p))
      exact ⟨p, _, hp, hplaced, rfl, .inr (endsExpression_spelling hall.2.1 _)⟩
    | alt ps =>
      obtain ⟨hlen, hall, -⟩ := h
      obtain ⟨p, q, ps, rfl⟩ := exists_cons_cons_of_length hlen
      obtain ⟨a, rest, ha, hplaced, hp, hrest⟩ := ih p List.mem_cons_self hall.1
      have htext : (alt (p :: q :: ps)).spelling =
          a.spelling ++ (rest ++ '|' :: spellingOfBranches (q :: ps)) := by
        rw [spelling, spellingOfBranches, hp, List.append_assoc]
      refine ⟨a, _, ha, List.mem_cons_of_mem _ (List.mem_append_left _ hplaced), htext, .inr ?_⟩
      rcases hrest with rfl | hend
      · rw [List.self_eq_append_right.mp hp]
        rfl
      · cases rest with
        | nil => cases hend
        | cons => exact hend
    | char | group | star | exprRef | strRef =>
      refine ⟨_, [], ?_, self_mem_placed i _, (List.append_nil _).symm, .inl rfl⟩
      trivial

end CaptureGrammar.Pattern
