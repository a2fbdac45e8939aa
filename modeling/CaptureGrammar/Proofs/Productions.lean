import CaptureGrammar.Proofs.Building

/-! The grammar of a pattern node by node: which rules and productions it has, and why no others. -/
namespace CaptureGrammar

variable {k : Counts} {n : Nonterminal} {q : Production Nonterminal} {p : Pattern}
  {ps qs : List Pattern} {x y : Visit} {id : GroupId}

/-- The productions of a node, from its own nonterminal and those of its children. -/
def Visit.productions (x : Visit) : List (Production Nonterminal) :=
  match x.node with
  | .char c => [[.terminal c]]
  | .concat _ => [x.children.map fun y => .nonterminal y.nonterminal]
  | .alt _ | .group .. => x.children.map fun y => [.nonterminal y.nonterminal]
  | .star .. =>
    x.children.map (fun y => [.nonterminal y.nonterminal, .nonterminal x.nonterminal]) ++
      [[.epsilon]]
  | .exprRef _ | .strRef _ => []

namespace Visit

@[simp] theorem productions_char {c : Char} :
    (mk k (.char c)).productions = [[.terminal c]] := rfl

@[simp] theorem productions_concat :
    (mk k (.concat ps)).productions = [(names (k.next .concat) ps).map .nonterminal] := by
  simp [productions, children, names, Pattern.children]

@[simp] theorem productions_group {id : Option GroupId} : (mk k (.group id p)).productions =
    [[.nonterminal (p.nonterminal (k.pass (.group id p)))]] := rfl

@[simp] theorem productions_star {min : UInt32} {max : Option UInt32} :
    (mk k (.star p min max)).productions =
      [[.nonterminal (p.nonterminal (k.next .star)), .nonterminal (k.fresh .star)],
        [.epsilon]] := rfl

end Visit

/-- Some node of a row has the nonterminal `n` and the production `q`. -/
def Produces (k : Counts) (ps : List Pattern) (n : Nonterminal)
    (q : Production Nonterminal) : Prop :=
  ∃ x ∈ visits k ps, x.nonterminal = n ∧ q ∈ x.productions

/-! ### Groups and references -/

/-- Whether a node is a reference, which has no rule of its own. -/
def Pattern.isReference : Pattern → Bool
  | .exprRef _ | .strRef _ => true
  | _ => false

theorem captureId_of_nonterminal (hx : x.node.isReference = false)
    (h : x.nonterminal = .capture id) : x.node.captureId? = some id := by
  obtain ⟨k, p⟩ := x
  cases p with
  | group i p =>
    cases i with
    | none => cases h
    | some i =>
      cases h
      rfl
  | exprRef | strRef => cases hx
  | char | concat | alt | star => cases h

theorem nonterminal_of_captureId (h : p.captureId? = some id) : p.nonterminal k = .capture id := by
  obtain ⟨q, rfl⟩ := Pattern.captureId?_eq_some_iff.mp h
  rfl

theorem isReference_of_captureId (h : p.captureId? = some id) : p.isReference = false := by
  obtain ⟨q, rfl⟩ := Pattern.captureId?_eq_some_iff.mp h
  rfl

theorem productions_of_isReference (h : x.node.isReference = true) : x.productions = [] := by
  obtain ⟨k, p⟩ := x
  cases p with
  | exprRef | strRef => rfl
  | _ => cases h

/-- Some node of a row has the nonterminal `n` and a rule for it. -/
def Defines (k : Counts) (ps : List Pattern) (n : Nonterminal) : Prop :=
  ∃ x ∈ visits k ps, x.node.isReference = false ∧ x.nonterminal = n

theorem defines_capture_iff : Defines k ps (.capture id) ↔ ∃ p ∈ ps, p.captureId? = some id := by
  constructor
  · rintro ⟨x, hx, hxr, hxn⟩
    exact ⟨x.node, mem_nodes_of_mem_visits hx, captureId_of_nonterminal hxr hxn⟩
  · rintro ⟨p, hp, hid⟩
    rw [← map_node_visits k ps] at hp
    obtain ⟨x, hx, rfl⟩ := List.mem_map.mp hp
    exact ⟨x, hx, isReference_of_captureId hid, nonterminal_of_captureId hid⟩

/-- While the count of its category does not wrap around, a counted nonterminal has no rule before
its node is reached. -/
theorem not_defines_of_mem_visits {c : Category} {i : UInt32}
    (hn : (ps ++ qs).countP (·.category? = some c) ≤ UInt32.size)
    (hx : x ∈ visits (k.passAll ps) qs) (hc : x.nonterminal = .node c i) :
    ¬ Defines k ps (.node c i) := by
  induction ps generalizing k with
  | nil =>
    rintro ⟨y, hy, -⟩
    cases hy
  | cons p ps ih =>
    rintro ⟨y, hy, hyr, hyn⟩
    rcases List.mem_cons.mp hy with rfl | hy
    · have hlater : x ∈ visits (k.pass p) (ps ++ qs) := by
        rw [visits_append]
        exact List.mem_append_right _ hx
      exact nonterminal_ne_of_mem_visits hn hlater hyn hc
    · have hrest := Nat.le_trans (List.sublist_cons_self p (ps ++ qs)).countP_le hn
      exact ih hrest hx ⟨y, hy, hyr, hyn⟩

/-- A node that is counted has a nonterminal without a rule so far. -/
theorem not_defines_of_counted {c : Category} {i : UInt32} (hn : (ps ++ [p]).length < UInt32.size)
    (hc : (Visit.mk (k.passAll ps) p).nonterminal = .node c i) : ¬ Defines k ps (.node c i) :=
  not_defines_of_mem_visits (countP_le_size hn) List.mem_cons_self hc

/-! ### Mentions -/

/-- The nonterminals that the productions of a node mention. -/
def Visit.mentioned (x : Visit) : List Nonterminal :=
  x.productions.flatMap (·.filterMap Symbol.nonterminal?)

/-- The nonterminal of a repetition, which mentions itself. -/
def Visit.loops (x : Visit) : List Nonterminal :=
  if x.node.category? = some .star then [x.nonterminal] else []

theorem flatMap_nonterminal_singleton (xs : List Visit) :
    (xs.map fun y => [Symbol.nonterminal y.nonterminal]).flatMap
      (·.filterMap Symbol.nonterminal?) = xs.map Visit.nonterminal := by
  induction xs with
  | nil => rfl
  | cons x xs ih =>
    rw [List.map_cons, List.flatMap_cons, ih]
    rfl

/-- A node mentions its children, and a repetition then itself. -/
theorem Visit.mentioned_eq (x : Visit) :
    x.mentioned = x.children.map Visit.nonterminal ++ x.loops := by
  obtain ⟨k, p⟩ := x
  cases p with
  | char | star | exprRef | strRef => rfl
  | concat ps =>
    have hparts : (mk k (.concat ps)).mentioned = names (k.next .concat) ps := by
      simp [mentioned, List.filterMap_map, Function.comp_def, Symbol.nonterminal?]
    rw [hparts]
    exact (List.append_nil _).symm
  | alt ps =>
    rw [mentioned, productions, flatMap_nonterminal_singleton]
    exact (List.append_nil _).symm
  | group id p => cases id <;> rfl

theorem exists_production_mentions_iff : (∃ q ∈ x.productions, .nonterminal n ∈ q) ↔
    (∃ y ∈ x.children, n = y.nonterminal) ∨
      x.node.category? = some .star ∧ n = x.nonterminal := by
  have hmem : (∃ q ∈ x.productions, .nonterminal n ∈ q) ↔ n ∈ x.mentioned := by
    simp [Visit.mentioned, Symbol.nonterminal?_eq_some_iff]
  rw [hmem, x.mentioned_eq, List.mem_append, List.mem_map, Visit.loops]
  split
  · next hstar => simp [hstar, eq_comm]
  · next hstar => simp [hstar, eq_comm]

/-! ### Changes -/

/-- The changes that a node makes when it is completed. -/
def Visit.pushes (x : Visit) : List (Edit Nonterminal) := x.productions.map (.push x.nonterminal)

theorem mem_pushes : .push n q ∈ x.pushes ↔ x.nonterminal = n ∧ q ∈ x.productions := by
  simp only [Visit.pushes, List.mem_map, Edit.push.injEq]
  grind

theorem filter_isPush_pushes : x.pushes.filter Edit.isPush = x.pushes := by
  rw [List.filter_eq_self]
  intro e he
  obtain ⟨q, -, rfl⟩ := List.mem_map.mp he
  rfl

theorem mentioned_pushes : x.pushes.flatMap Edit.mentioned = x.mentioned := by
  rw [Visit.pushes, List.flatMap_map]
  rfl

namespace Pattern

/-- A reference changes nothing. Any other node defines its nonterminal before the nodes below it
make their changes, and pushes its productions after them. Alternations differ, as they push a
production after each branch. -/
theorem edits_cases (p : Pattern) (k : Counts) :
    (p.isReference = true ∧ p.edits k = [] ∧ p.children = []) ∨ (∃ ps, p = .alt ps) ∨
      (p.isReference = false ∧ p.edits k = .define (p.nonterminal k) ::
        editsOfAll (k.pass p) p.children ++ (Visit.mk k p).pushes) := by
  cases p with
  | alt ps => exact .inr (.inl ⟨ps, rfl⟩)
  | exprRef | strRef => exact .inl ⟨rfl, rfl, rfl⟩
  | _ =>
    refine .inr (.inr ⟨rfl, ?_⟩)
    simp [edits, editsOfAll, Visit.pushes, children, nonterminal, Visit.nonterminal]

theorem pushes_editsOfBranches : ((editsOfBranches n k ps).filter Edit.isPush).Perm
    ((editsOfAll k ps).filter Edit.isPush ++
      (entries k ps).map fun y => .push n [.nonterminal y.nonterminal]) := by
  induction ps generalizing k with
  | nil => exact .nil
  | cons p ps ih =>
    rw [editsOfBranches, editsOfAll, List.filter_append, List.filter_append, List.append_assoc,
      List.filter_cons_of_pos rfl]
    apply List.Perm.append_left
    exact (ih.cons _).trans List.perm_middle.symm

/-- A node pushes its productions in addition to what the nodes below it push. -/
theorem pushes_edits (p : Pattern) (k : Counts) : ((p.edits k).filter Edit.isPush).Perm
    ((editsOfAll (k.pass p) p.children).filter Edit.isPush ++ (Visit.mk k p).pushes) := by
  rcases p.edits_cases k with ⟨href, hedits, hchildren⟩ | ⟨ps, rfl⟩ | ⟨-, hedits⟩
  · have hnone : (Visit.mk k p).pushes = [] := by
      rw [Visit.pushes, productions_of_isReference href]
      rfl
    rw [hedits, hchildren, hnone]
    exact .nil
  · have hown : (Visit.mk k (.alt ps)).pushes = (entries (k.next .alt) ps).map
        fun y => .push (k.fresh .alt) [.nonterminal y.nonterminal] := List.map_map
    rw [hown]
    exact pushes_editsOfBranches
  · rw [hedits, List.cons_append, List.filter_cons_of_neg Bool.false_ne_true, List.filter_append,
      filter_isPush_pushes]

theorem pushes_editsOfAll_of (h : ∀ p ∈ ps, ∀ k, ((p.edits k).filter Edit.isPush).Perm
    ((visits k p.nodes).flatMap Visit.pushes)) (k : Counts) :
    ((editsOfAll k ps).filter Edit.isPush).Perm
      ((visits k (nodesOfAll ps)).flatMap Visit.pushes) := by
  induction ps generalizing k with
  | nil => exact .nil
  | cons p ps ih =>
    obtain ⟨hp, hps⟩ := List.forall_mem_cons.mp h
    rw [editsOfAll, nodesOfAll, visits_append, List.filter_append, List.flatMap_append]
    exact (hp k).append (ih hps _)

/-- A pattern pushes the productions of its nodes, and nothing else. -/
theorem pushes_perm_visits (p : Pattern) : ∀ k, ((p.edits k).filter Edit.isPush).Perm
    ((visits k p.nodes).flatMap Visit.pushes) := by
  induction p using childrenInduction with
  | node p ih =>
    intro k
    rw [visits_nodes, List.flatMap_cons]
    apply (pushes_edits p k).trans
    exact ((pushes_editsOfAll_of ih _).append_right _).trans List.perm_append_comm

theorem push_mem_iff_of_perm {es : List (Edit Nonterminal)}
    (h : (es.filter Edit.isPush).Perm ((visits k ps).flatMap Visit.pushes)) :
    .push n q ∈ es ↔ Produces k ps n q := by
  have hpush : .push n q ∈ es ↔ .push n q ∈ es.filter Edit.isPush := by simp [Edit.isPush]
  rw [hpush, h.mem_iff, List.mem_flatMap]
  simp only [mem_pushes]
  rfl

theorem push_mem_edits (p : Pattern) (k : Counts) :
    .push n q ∈ p.edits k ↔ Produces k p.nodes n q :=
  push_mem_iff_of_perm (p.pushes_perm_visits k)

theorem push_mem_editsOfAll (ps : List Pattern) (k : Counts) :
    .push n q ∈ editsOfAll k ps ↔ Produces k (nodesOfAll ps) n q :=
  push_mem_iff_of_perm (pushes_editsOfAll_of (fun p _ => p.pushes_perm_visits) k)

end Pattern

namespace Grammar

theorem nodup_lhs_ofPattern (p : Pattern) : ((ofPattern p).rules.map Rule.lhs).Nodup := by
  rw [ofPattern, Builder.ofPattern_eq]
  exact Rule.nodup_editAll List.nodup_nil

/-- The start symbol has the root as its production, and every other production is of a node. -/
theorem mem_productions_ofPattern :
    (∃ r ∈ (ofPattern p).rules, r.lhs = n ∧ q ∈ r.productions) ↔
      (n = .start ∧ q = [.nonterminal (p.nonterminal {})]) ∨ Produces {} p.nodes n q := by
  rw [← Rule.mem_productionsOf (nodup_lhs_ofPattern p)]
  simp only [ofPattern, Builder.ofPattern_eq, Builder.extend, Rule.productionsOf_editAll,
    List.mem_append, Rule.mem_pushedTo, Pattern.allEdits, List.mem_cons, p.push_mem_edits]
  simp [Rule.productionsOf, or_comm]

end Grammar

end CaptureGrammar
