import CaptureGrammar.Proofs.Numbering
import CaptureGrammar.Proofs.RuleTable

/-! Building the grammar of a pattern, as a row of changes to an empty table. -/
namespace CaptureGrammar

variable {k : Counts} {n : Nonterminal} {p : Pattern} {ps qs : List Pattern}

/-- The nonterminals of patterns in a row, of which the first is reached with counts `k`. -/
def names (k : Counts) (ps : List Pattern) : List Nonterminal :=
  (entries k ps).map Visit.nonterminal

mutual

/-- The changes that a pattern reached with counts `k` makes to the table. -/
def Pattern.edits (k : Counts) : Pattern → List (Edit Nonterminal)
  | .char c => [.define (k.fresh .char), .push (k.fresh .char) [.terminal c]]
  | .concat ps => .define (k.fresh .concat) :: editsOfAll (k.next .concat) ps ++
      [.push (k.fresh .concat) ((names (k.next .concat) ps).map .nonterminal)]
  | .alt ps => .define (k.fresh .alt) :: editsOfBranches (k.fresh .alt) (k.next .alt) ps
  | .group id p =>
    let n := (Pattern.group id p).nonterminal k
    let k := k.pass (.group id p)
    .define n :: p.edits k ++ [.push n [.nonterminal (p.nonterminal k)]]
  | .star p _ _ => .define (k.fresh .star) :: p.edits (k.next .star) ++
      [.push (k.fresh .star)
        [.nonterminal (p.nonterminal (k.next .star)), .nonterminal (k.fresh .star)],
      .push (k.fresh .star) [.epsilon]]
  | .exprRef _ | .strRef _ => []

def Pattern.editsOfAll (k : Counts) : List Pattern → List (Edit Nonterminal)
  | [] => []
  | p :: ps => p.edits k ++ editsOfAll (k.passAll p.nodes) ps

/-- Each branch is pushed to `n` once its own changes are made. -/
def Pattern.editsOfBranches (n : Nonterminal) (k : Counts) :
    List Pattern → List (Edit Nonterminal)
  | [] => []
  | p :: ps => p.edits k ++ .push n [.nonterminal (p.nonterminal k)] ::
      editsOfBranches n (k.passAll p.nodes) ps

end

/-- The nonterminals that nodes in a row get by being counted, in order. -/
def allocations (k : Counts) (ps : List Pattern) : List Nonterminal :=
  (visits k ps).filterMap fun x => x.node.category?.map x.counts.fresh

theorem allocations_cons : allocations k (p :: ps) =
    (p.category?.map k.fresh).toList ++ allocations (k.pass p) ps := by
  rw [allocations, visits, List.filterMap_cons]
  cases p.category? <;> rfl

theorem allocations_append :
    allocations k (ps ++ qs) = allocations k ps ++ allocations (k.passAll ps) qs := by
  rw [allocations, visits_append, List.filterMap_append]
  rfl

/-- The changes that building the grammar of `p` makes to an empty table. -/
def Pattern.allEdits (p : Pattern) : List (Edit Nonterminal) :=
  .define .start :: p.edits {} ++ [.push .start [.nonterminal (p.nonterminal {})]]

namespace Builder

variable {b : Builder} {c : Category} {es fs : List (Edit Nonterminal)}

/-- The builder after it has passed the nodes `ps` and made the changes `es`. -/
def extend (b : Builder) (ps : List Pattern) (es : List (Edit Nonterminal)) : Builder where
  counts := b.counts.passAll ps
  rules := Rule.editAll b.rules es
  allocated := (allocations b.counts ps).reverse ++ b.allocated

@[simp] theorem extend_extend :
    (b.extend ps es).extend qs fs = b.extend (ps ++ qs) (es ++ fs) := by
  simp [extend, allocations_append]

theorem run_bind {α β : Type} (x : StateM Builder α) (f : α → StateM Builder β) :
    (x >>= f) b = f (x b).1 (x b).2 := rfl

theorem run_pure {α : Type} (a : α) : (pure a : StateM Builder α) b = (a, b) := rfl

theorem run_define : define n b = ((), b.extend [] [.define n]) := rfl

theorem run_push {q : Production Nonterminal} : push n q b = ((), b.extend [] [.push n q]) := rfl

theorem run_allocate (h : p.category? = some c) :
    allocate c b = (b.counts.fresh c, b.extend [p] [.define (b.counts.fresh c)]) := by
  simp only [extend, Counts.passAll_cons, Counts.pass, h, allocations, visits,
    List.filterMap_cons]
  rfl

theorem run_allocateGroup (p : Pattern) (id : Option GroupId) :
    allocateGroup id b = ((Pattern.group id p).nonterminal b.counts,
      b.extend [.group id p] [.define ((Pattern.group id p).nonterminal b.counts)]) := by
  cases id with
  | none => exact run_allocate rfl
  | some id => rfl

mutual

/-- Adding a pattern passes its nodes and makes its changes. -/
theorem run_add : (p : Pattern) → ∀ b : Builder,
    add p b = (p.nonterminal b.counts, b.extend p.nodes (p.edits b.counts))
  | .char c, b => by
    simp only [add, run_bind, run_allocate (p := .char c) rfl, run_push, run_pure, extend_extend]
    rfl
  | .concat ps, b => by
    simp only [add, run_bind, run_allocate (p := .concat ps) rfl, run_addParts ps, run_push,
      run_pure, extend_extend, List.append_nil]
    rfl
  | .alt ps, b => by
    simp only [add, run_bind, run_allocate (p := .alt ps) rfl, run_addBranches ps, run_pure,
      extend_extend]
    rfl
  | .group id p, b => by
    simp only [add, run_bind, run_allocateGroup p, run_add p, run_push, run_pure, extend_extend,
      List.append_nil]
    rfl
  | .star p m l, b => by
    simp only [add, run_bind, run_allocate (p := .star p m l) rfl, run_add p, run_push, run_pure,
      extend_extend, List.append_nil, List.append_assoc]
    rfl
  | .exprRef _, b | .strRef _, b => rfl

theorem run_addParts : (ps : List Pattern) → ∀ b : Builder,
    addParts ps b = ((names b.counts ps).map .nonterminal,
      b.extend (Pattern.nodesOfAll ps) (Pattern.editsOfAll b.counts ps))
  | [], b => rfl
  | p :: ps, b => by
    simp only [addParts, run_bind, run_add p, run_addParts ps, run_pure, extend_extend]
    rfl

theorem run_addBranches : (ps : List Pattern) → ∀ (n : Nonterminal) (b : Builder),
    addBranches n ps b =
      ((), b.extend (Pattern.nodesOfAll ps) (Pattern.editsOfBranches n b.counts ps))
  | [], n, b => rfl
  | p :: ps, n, b => by
    simp only [addBranches, run_bind, run_add p, run_push, run_addBranches ps, extend_extend,
      List.append_nil, List.append_assoc]
    rfl

end

theorem ofPattern_eq (p : Pattern) :
    ofPattern p = ({} : Builder).extend p.nodes p.allEdits := by
  have h : addRoot p {} = ((), ({} : Builder).extend p.nodes p.allEdits) := by
    simp only [addRoot, run_bind, run_define, run_add, run_push, extend_extend, List.append_nil]
    rfl
  exact congrArg Prod.snd h

theorem counts_ofPattern (p : Pattern) : (ofPattern p).counts = ({} : Counts).passAll p.nodes := by
  rw [ofPattern_eq]
  rfl

theorem reverse_allocated (p : Pattern) :
    (ofPattern p).allocated.reverse = allocations {} p.nodes := by
  rw [ofPattern_eq]
  simp [extend]

end Builder

end CaptureGrammar
