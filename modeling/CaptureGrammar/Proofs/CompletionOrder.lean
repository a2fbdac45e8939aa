import CaptureGrammar.Proofs.Numbering
import CaptureGrammar.Validation

/-! The order in which the nodes of a pattern are completed, and the check on it. -/
namespace CaptureGrammar

open Pattern (postorderOfAll)

variable {k : Counts} {p : Pattern} {ps : List Pattern} {x y : Visit} {xs ys pre post : List Visit}
  {i : Nat} {path : List Nat}

/-- The check fails on a reference to the text of a group that is completed later. -/
theorem inReferenceOrder_eq_false_iff {seen : List GroupId} {cs : List Completion} :
    inReferenceOrder seen cs = false ↔ (∃ id ∈ seen, .group (some id) ∈ cs) ∨
      ∃ id, [.strRef id, .group (some id)].Sublist cs := by
  fun_induction inReferenceOrder seen cs with
  | case1 => simp
  | case2 seen i cs ih =>
    simp only [ih, List.mem_cons, List.sublist_cons_iff, List.cons.injEq]
    grind
  | case3 seen i cs ih =>
    simp only [Bool.and_eq_false_iff, ih, List.sublist_cons_iff]
    grind
  | case4 seen c cs hs hg ih =>
    simp only [ih, List.mem_cons, List.sublist_cons_iff]
    grind

/-! ### The order by addresses -/

/-- The record of the node at an address. -/
def completionAt (p : Pattern) (path : List Nat) : Option Completion :=
  (nodeAt Pattern.children p path).map Pattern.completion

/-- The record of the node at an address below the `i`-th of patterns in a row. -/
def completionIn (ps : List Pattern) (i : Nat) (path : List Nat) : Option Completion :=
  ps[i]?.bind fun p => completionAt p path

theorem completionAt_cons : completionAt p (i :: path) = completionIn p.children i path := by
  rw [completionAt, completionIn, nodeAt, Option.map_bind]
  rfl

theorem completionIn_succ : completionIn (p :: ps) (i + 1) path = completionIn ps i path := by
  rw [completionIn, completionIn, List.getElem?_cons_succ]

theorem completionIn_nil : completionIn [] i path = none := rfl

theorem mem_postorderOfAll_iff_of (h : ∀ p ∈ ps, ∀ c, c ∈ p.postorder ↔
    ∃ path, completionAt p path = some c) (c : Completion) :
    c ∈ postorderOfAll ps ↔ ∃ i path, completionIn ps i path = some c := by
  induction ps with
  | nil => simp [postorderOfAll, completionIn_nil]
  | cons p ps ih =>
    obtain ⟨hp, hps⟩ := List.forall_mem_cons.mp h
    rw [postorderOfAll, List.mem_append, hp, ih hps]
    constructor
    · rintro (⟨path, h⟩ | ⟨i, path, h⟩)
      · exact ⟨0, path, h⟩
      · exact ⟨i + 1, path, completionIn_succ.trans h⟩
    · rintro ⟨_ | i, path, h⟩
      · exact .inl ⟨path, h⟩
      · exact .inr ⟨i, path, completionIn_succ.symm.trans h⟩

theorem mem_postorder_iff (p : Pattern) :
    ∀ c, c ∈ p.postorder ↔ ∃ path, completionAt p path = some c := by
  induction p using Pattern.childrenInduction with
  | node p ih =>
    intro c
    rw [Pattern.postorder_eq, List.mem_append, List.mem_singleton, mem_postorderOfAll_iff_of ih]
    constructor
    · rintro (⟨i, path, h⟩ | rfl)
      · exact ⟨i :: path, completionAt_cons.trans h⟩
      · exact ⟨[], rfl⟩
    · rintro ⟨_ | ⟨i, path⟩, h⟩
      · exact .inr (Option.some.inj h).symm
      · exact .inl ⟨i, path, completionAt_cons.symm.trans h⟩

theorem mem_postorderOfAll_iff (c : Completion) :
    c ∈ postorderOfAll ps ↔ ∃ i path, completionIn ps i path = some c :=
  mem_postorderOfAll_iff_of (fun p _ => mem_postorder_iff p) c

theorem pair_sublist_append {α : Type} {a b : α} {l l' : List α} : [a, b].Sublist (l ++ l') ↔
    [a, b].Sublist l ∨ [a, b].Sublist l' ∨ a ∈ l ∧ b ∈ l' := by
  rw [List.sublist_append_iff]
  constructor
  · rintro ⟨_ | ⟨c, _ | ⟨d, l₁⟩⟩, l₂, heq, h₁, h₂⟩
    · cases heq
      exact .inr (.inl h₂)
    · cases heq
      exact .inr (.inr ⟨List.singleton_sublist.mp h₁, List.singleton_sublist.mp h₂⟩)
    · simp only [List.cons_append, List.cons.injEq, List.nil_eq, List.append_eq_nil_iff] at heq
      obtain ⟨rfl, rfl, rfl, rfl⟩ := heq
      exact .inl h₁
  · rintro (h | h | ⟨ha, hb⟩)
    · exact ⟨[a, b], [], rfl, h, List.nil_sublist _⟩
    · exact ⟨[], [a, b], rfl, List.nil_sublist _, h⟩
    · exact ⟨[a], [b], rfl, List.singleton_sublist.mpr ha, List.singleton_sublist.mpr hb⟩

/-- One record comes before another if it belongs to a node that is completed before. -/
theorem pair_sublist_postorder_iff (p : Pattern) : ∀ c d, [c, d].Sublist p.postorder ↔
    ∃ path path', completionAt p path = some c ∧ completionAt p path' = some d ∧
      CompletedBefore path path' := by
  refine Pattern.forestInduction (fun ps => ∀ c d, [c, d].Sublist (postorderOfAll ps) ↔
    ∃ i path j path', completionIn ps i path = some c ∧ completionIn ps j path' = some d ∧
      CompletedBefore (i :: path) (j :: path')) ?node ?nil ?cons p
  case node =>
    intro p ih c d
    rw [Pattern.postorder_eq, pair_sublist_append, ih, mem_postorderOfAll_iff]
    constructor
    · rintro (⟨i, path, j, path', hc, hd, hbefore⟩ | h | ⟨⟨i, path, hc⟩, hd⟩)
      · exact ⟨i :: path, j :: path', completionAt_cons.trans hc, completionAt_cons.trans hd,
          hbefore⟩
      · have hle := h.length_le
        simp at hle
      · cases List.mem_singleton.mp hd
        exact ⟨i :: path, [], completionAt_cons.trans hc, rfl,
          completedBefore_nil.mpr (List.cons_ne_nil i path)⟩
    · rintro ⟨_ | ⟨i, path⟩, path', hc, hd, hbefore⟩
      · exact (not_nil_completedBefore hbefore).elim
      · rw [completionAt_cons] at hc
        cases path' with
        | nil =>
          cases hd
          exact .inr (.inr ⟨⟨i, path, hc⟩, List.mem_singleton_self _⟩)
        | cons j path' =>
          rw [completionAt_cons] at hd
          exact .inl ⟨i, path, j, path', hc, hd, hbefore⟩
  case nil =>
    intro c d
    simp [postorderOfAll, completionIn_nil]
  case cons =>
    intro p ps ihp ihps c d
    rw [postorderOfAll, pair_sublist_append, ihp, ihps, mem_postorder_iff, mem_postorderOfAll_iff]
    constructor
    · rintro (⟨path, path', hc, hd, hbefore⟩ | ⟨i, path, j, path', hc, hd, hbefore⟩ |
        ⟨⟨path, hc⟩, j, path', hd⟩)
      · exact ⟨0, path, 0, path', hc, hd, completedBefore_cons.mpr (.inr ⟨rfl, hbefore⟩)⟩
      · refine ⟨i + 1, path, j + 1, path', completionIn_succ.trans hc, completionIn_succ.trans hd,
          completedBefore_cons.mpr ?_⟩
        rcases completedBefore_cons.mp hbefore with hlt | ⟨heq, hbefore⟩
        · exact .inl (Nat.succ_lt_succ hlt)
        · exact .inr ⟨congrArg (· + 1) heq, hbefore⟩
      · exact ⟨0, path, j + 1, path', hc, completionIn_succ.trans hd,
          completedBefore_cons.mpr (.inl (Nat.succ_pos j))⟩
    · rintro ⟨i, path, j, path', hc, hd, hbefore⟩
      rw [completedBefore_cons] at hbefore
      rcases i with _ | i <;> rcases j with _ | j
      · rcases hbefore with hlt | ⟨-, hbefore⟩
        · cases hlt
        · exact .inl ⟨path, path', hc, hd, hbefore⟩
      · exact .inr (.inr ⟨⟨path, hc⟩, j, path', completionIn_succ.symm.trans hd⟩)
      · rcases hbefore with hlt | ⟨heq, -⟩
        · cases hlt
        · cases heq
      · rw [completionIn_succ] at hc hd
        refine .inr (.inl ⟨i, path, j, path', hc, hd, completedBefore_cons.mpr ?_⟩)
        rcases hbefore with hlt | ⟨heq, hbefore⟩
        · exact .inl (Nat.lt_of_succ_lt_succ hlt)
        · exact .inr ⟨Nat.succ.inj heq, hbefore⟩

/-! ### The order of the walk -/

mutual

/-- The visits of a walk over a pattern, each after those to the parts of its node. -/
def finished (k : Counts) : Pattern → List Visit
  | .concat ps => finishedOfAll (k.next .concat) ps ++ [⟨k, .concat ps⟩]
  | .alt ps => finishedOfAll (k.next .alt) ps ++ [⟨k, .alt ps⟩]
  | .group id p => finished (k.pass (.group id p)) p ++ [⟨k, .group id p⟩]
  | .star p min max => finished (k.next .star) p ++ [⟨k, .star p min max⟩]
  | .char c => [⟨k, .char c⟩]
  | .exprRef id => [⟨k, .exprRef id⟩]
  | .strRef id => [⟨k, .strRef id⟩]

def finishedOfAll (k : Counts) : List Pattern → List Visit
  | [] => []
  | p :: ps => finished k p ++ finishedOfAll (k.passAll p.nodes) ps

end

theorem finished_eq (k : Counts) (p : Pattern) :
    finished k p = finishedOfAll (k.pass p) p.children ++ [⟨k, p⟩] := by
  cases p <;> simp [finished, finishedOfAll, Pattern.children]

/-- The walk completes what it visits. -/
theorem finished_perm_visits (p : Pattern) :
    ∀ k : Counts, (finished k p).Perm (visits k p.nodes) := by
  refine Pattern.forestInduction
    (fun ps => ∀ k, (finishedOfAll k ps).Perm (visits k (Pattern.nodesOfAll ps)))
    ?node ?nil ?cons p
  case node =>
    intro p ih k
    rw [finished_eq, visits_nodes]
    exact List.perm_append_comm.trans ((ih _).cons _)
  case nil =>
    intro k
    exact .nil
  case cons =>
    intro p ps ihp ihps k
    rw [finishedOfAll, Pattern.nodesOfAll, visits_append]
    exact (ihp k).append (ihps _)

/-- Whether each visit comes after those to the children of its node. -/
def ChildrenFirst (xs : List Visit) : Prop :=
  ∀ pre x post, xs = pre ++ x :: post → x.children ⊆ pre

theorem ChildrenFirst.append (hx : ChildrenFirst xs) (hy : ChildrenFirst ys) :
    ChildrenFirst (xs ++ ys) := by
  intro pre z post h
  rcases List.append_eq_append_iff.mp h with ⟨zs, rfl, hzs⟩ | ⟨zs, hzs, hpost⟩
  · intro c hc
    exact List.mem_append_right _ (hy zs z post hzs hc)
  · cases zs with
    | nil =>
      rw [List.append_nil] at hzs
      intro c hc
      have hmem := hy [] z post hpost.symm hc
      cases hmem
    | cons w zs =>
      cases hpost
      exact hx pre z zs hzs

end CaptureGrammar
