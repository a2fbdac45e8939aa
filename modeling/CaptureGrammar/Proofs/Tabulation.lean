import CaptureGrammar.Proofs.Derivation
import CaptureGrammar.Proofs.ProductionOrder
import CaptureGrammar.Proofs.RuleOrder
import Mathlib.Data.List.Induction

/-!
The grammar of a pattern read off the tree, node by node.

A node has its name and its productions from the nodes before it, without counters or a table. Main
statement: the walk that counts nodes and changes a table builds this grammar.
-/
namespace CaptureGrammar

open Grammar (ofPattern)
open Pattern (nodesOfAll)

/-- A node of a pattern, with the nodes that a walk from the root opens before it. -/
structure Occurrence where
  before : List Pattern
  node : Pattern

namespace Occurrence

/-- Nodes in a row, of which the first has the nodes `b` before it. -/
def row (b : List Pattern) : List Pattern → List Occurrence
  | [] => []
  | p :: ps => ⟨b, p⟩ :: row (b ++ [p]) ps

mutual

/-- The nodes of a pattern, each after its parts. -/
def completed (b : List Pattern) : Pattern → List Occurrence
  | .concat ps => completedOfAll (b ++ [.concat ps]) ps ++ [⟨b, .concat ps⟩]
  | .alt ps => completedOfAll (b ++ [.alt ps]) ps ++ [⟨b, .alt ps⟩]
  | .group id p => completed (b ++ [.group id p]) p ++ [⟨b, .group id p⟩]
  | .star p min max => completed (b ++ [.star p min max]) p ++ [⟨b, .star p min max⟩]
  | .char c => [⟨b, .char c⟩]
  | .exprRef id => [⟨b, .exprRef id⟩]
  | .strRef id => [⟨b, .strRef id⟩]

def completedOfAll (b : List Pattern) : List Pattern → List Occurrence
  | [] => []
  | p :: ps => completed b p ++ completedOfAll (b ++ p.nodes) ps

end

/-- Patterns in a row as they occur one after the other with all their nodes. -/
def roots (b : List Pattern) : List Pattern → List Occurrence
  | [] => []
  | p :: ps => ⟨b, p⟩ :: roots (b ++ p.nodes) ps

def children (x : Occurrence) : List Occurrence := roots (x.before ++ [x.node]) x.node.children

/-- The only child `p` of a node. -/
def child (x : Occurrence) (p : Pattern) : Occurrence := ⟨x.before ++ [x.node], p⟩

/-- The place of a node among those of its category, from 1. -/
def ordinal (x : Occurrence) : Nat := x.before.countP (·.category? = x.node.category?) + 1

def name (x : Occurrence) : String :=
  match x.node with
  | .char _ => "Char" ++ toString x.ordinal
  | .concat _ => "C" ++ toString x.ordinal
  | .alt _ => "A" ++ toString x.ordinal
  | .group none _ => "Ncg" ++ toString x.ordinal
  | .star .. => "R" ++ toString x.ordinal
  | .group (some id) _ | .exprRef id | .strRef id => "G" ++ toString id

def productions (x : Occurrence) : List (Production String) :=
  match x.node with
  | .char c => [[.terminal c]]
  | .concat _ => [x.children.map fun y => .nonterminal y.name]
  | .alt _ => x.children.map fun y => [.nonterminal y.name]
  | .group _ p => [[.nonterminal (x.child p).name]]
  | .star p _ _ => [[.nonterminal (x.child p).name, .nonterminal x.name], [.epsilon]]
  | .exprRef _ | .strRef _ => []

/-- Whether the name of a node has no rule before. Of the capturing groups with one number, only the
first one makes a rule. -/
def introduces (x : Occurrence) : Bool :=
  match x.node with
  | .exprRef _ | .strRef _ => false
  | .group (some id) _ => x.before.all fun p => p.captureId? ≠ some id
  | _ => true

/-- The rule for the name of a node. Capturing groups with one number share theirs. -/
def rule (root : Pattern) (x : Occurrence) : Rule String :=
  ⟨x.name, match x.node with
    | .group (some id) _ =>
      ((completed [] root).filter (·.node.captureId? = some id)).flatMap productions
    | _ => x.productions⟩

end Occurrence

/-- The grammar of a pattern, from the names and productions of its nodes. -/
def Grammar.tabulated (root : Pattern) : Grammar String where
  start := "S"
  rules := ⟨"S", [[.nonterminal (Occurrence.mk [] root).name]]⟩ ::
    ((Occurrence.row [] root.nodes).filter Occurrence.introduces).map (Occurrence.rule root)

namespace Occurrence

variable {b ps qs : List Pattern} {p root : Pattern} {x y : Occurrence} {c : Category}

theorem completed_eq (b : List Pattern) (p : Pattern) :
    completed b p = completedOfAll (b ++ [p]) p.children ++ [⟨b, p⟩] := by
  cases p <;> simp [completed, completedOfAll, Pattern.children]

theorem row_append : row b (ps ++ qs) = row b ps ++ row (b ++ ps) qs := by
  induction ps generalizing b with
  | nil => simp [row]
  | cons p ps ih => simp [row, ih]

theorem row_nodes : row b p.nodes = ⟨b, p⟩ :: row (b ++ [p]) (nodesOfAll p.children) := by
  rw [Pattern.nodes_eq, row]

theorem root_mem_row (p : Pattern) : ⟨b, p⟩ ∈ row b p.nodes := by
  rw [row_nodes]
  exact List.mem_cons_self

/-- Both orders have the same nodes. -/
theorem completed_perm_row (p : Pattern) : ∀ b, (completed b p).Perm (row b p.nodes) := by
  refine Pattern.forestInduction
    (fun ps => ∀ b, (completedOfAll b ps).Perm (row b (nodesOfAll ps))) ?node ?nil ?cons p
  case node =>
    intro p ih b
    rw [completed_eq, row_nodes]
    exact List.perm_append_comm.trans ((ih _).cons _)
  case nil =>
    intro b
    exact .nil
  case cons =>
    intro p ps ihp ihps b
    rw [completedOfAll, nodesOfAll, row_append]
    exact (ihp b).append (ihps _)

/-! ### Bounds -/

/-- How many nodes there are up to the last one below a node. -/
def stop (x : Occurrence) : Nat := x.before.length + x.node.nodes.length

theorem length_before_lt_stop : x.before.length < x.stop := by
  rw [stop, Pattern.nodes_eq, List.length_cons]
  omega

theorem stop_le_of_mem_roots (h : x ∈ roots b ps) :
    x.stop ≤ b.length + (nodesOfAll ps).length := by
  induction ps generalizing b with
  | nil => cases h
  | cons p ps ih =>
    rw [nodesOfAll, List.length_append]
    rcases List.mem_cons.mp h with rfl | h
    · simp only [stop]
      omega
    · have hrest := ih h
      rw [List.length_append] at hrest
      omega

theorem stop_le_of_mem_children (h : y ∈ x.children) : y.stop ≤ x.stop := by
  have hle := stop_le_of_mem_roots h
  rw [List.length_append, List.length_singleton] at hle
  rw [stop.eq_def x, Pattern.nodes_eq x.node, List.length_cons]
  omega

theorem stop_le_of_mem_row (p : Pattern) :
    ∀ b, ∀ x ∈ row b p.nodes, x.stop ≤ b.length + p.nodes.length := by
  refine Pattern.forestInduction (fun ps => ∀ b, ∀ x ∈ row b (nodesOfAll ps),
    x.stop ≤ b.length + (nodesOfAll ps).length) ?node ?nil ?cons p
  case node =>
    intro p ih b x hx
    rw [row_nodes] at hx
    rcases List.mem_cons.mp hx with rfl | hx
    · exact Nat.le_refl _
    · have hle := ih _ x hx
      rw [List.length_append, List.length_singleton] at hle
      rw [Pattern.nodes_eq, List.length_cons]
      omega
  case nil =>
    intro b x hx
    cases hx
  case cons =>
    intro p ps ihp ihps b x hx
    rw [nodesOfAll, row_append, List.mem_append] at hx
    rw [nodesOfAll, List.length_append]
    rcases hx with hx | hx
    · have hle := ihp b x hx
      omega
    · have hle := ihps _ x hx
      rw [List.length_append] at hle
      omega

/-! ### Counting -/

/-- The node as the walk that counts reaches it. -/
def visit (x : Occurrence) : Visit := ⟨({} : Counts).passAll x.before, x.node⟩

theorem map_visit_row : (row b ps).map visit = visits (({} : Counts).passAll b) ps := by
  induction ps generalizing b with
  | nil => rfl
  | cons p ps ih =>
    rw [row, List.map_cons, ih, Counts.passAll_append]
    rfl

theorem map_visit_roots : (roots b ps).map visit = entries (({} : Counts).passAll b) ps := by
  induction ps generalizing b with
  | nil => rfl
  | cons p ps ih =>
    rw [roots, List.map_cons, ih, Counts.passAll_append]
    rfl

theorem map_visit_children : x.children.map visit = x.visit.children := by
  rw [children, map_visit_roots, Counts.passAll_append]
  rfl

theorem map_visit_completed (p : Pattern) :
    ∀ b, (completed b p).map visit = finished (({} : Counts).passAll b) p := by
  refine Pattern.forestInduction (fun ps => ∀ b,
    (completedOfAll b ps).map visit = finishedOfAll (({} : Counts).passAll b) ps) ?node ?nil ?cons p
  case node =>
    intro p ih b
    rw [completed_eq, List.map_append, ih, Counts.passAll_append, finished_eq]
    rfl
  case nil =>
    intro b
    rfl
  case cons =>
    intro p ps ihp ihps b
    rw [completedOfAll, List.map_append, ihp, ihps, Counts.passAll_append, finishedOfAll]

/-- The counter of a category shows the place of the next node among those of it. -/
theorem name_fresh (h : b.length + 1 < UInt32.size) :
    ((({} : Counts).passAll b).fresh c).name =
      c.stem ++ toString (b.countP (·.category? = some c) + 1) := by
  have hzero : (({} : Counts).get c).toNat = 0 := by cases c <;> rfl
  have hle : b.countP (·.category? = some c) ≤ b.length := List.countP_le_length
  have hcount : ((({} : Counts).passAll b).get c).toNat = b.countP (·.category? = some c) := by
    rw [Counts.toNat_get_passAll (by omega), hzero, Nat.zero_add]
  have hnext : ((({} : Counts).passAll b).get c + 1).toNat =
      b.countP (·.category? = some c) + 1 := by
    rw [UInt32.toNat_add, UInt32.toNat_one, hcount]
    simp only [UInt32.size] at h
    omega
  rw [Counts.fresh, Counts.get_next, if_pos rfl, Nonterminal.name, ← hnext]
  rfl

theorem name_visit (h : x.stop < UInt32.size) : x.visit.nonterminal.name = x.name := by
  have hb : x.before.length + 1 < UInt32.size := Nat.lt_of_le_of_lt length_before_lt_stop h
  obtain ⟨b, p⟩ := x
  cases p with
  | group id p =>
    cases id with
    | none => exact name_fresh hb
    | some id => rfl
  | exprRef | strRef => rfl
  | _ => exact name_fresh hb

theorem map_children_visit {α : Type} (f : String → α) (h : x.stop < UInt32.size) :
    x.visit.children.map (fun y => f y.nonterminal.name) = x.children.map fun y => f y.name := by
  rw [← map_visit_children, List.map_map]
  apply List.map_congr_left
  intro y hy
  exact congrArg f (name_visit (Nat.lt_of_le_of_lt (stop_le_of_mem_children hy) h))

theorem name_child (h : x.stop < UInt32.size) (hp : x.child p ∈ x.children) :
    (p.nonterminal (x.visit.counts.pass x.node)).name = (x.child p).name := by
  have hname := name_visit (Nat.lt_of_le_of_lt (stop_le_of_mem_children hp) h)
  rw [Visit.nonterminal, visit, child, Counts.passAll_append] at hname
  exact hname

theorem rename_productions_visit (h : x.stop < UInt32.size) :
    x.visit.productions.map (·.map (Symbol.rename Nonterminal.name)) = x.productions := by
  have hself : x.visit.nonterminal.name = x.name := name_visit h
  obtain ⟨b, p⟩ := x
  cases p with
  | char | exprRef | strRef => rfl
  | concat ps =>
    have hparts := map_children_visit Symbol.nonterminal h
    simpa [visit, Visit.productions, productions, Symbol.rename, Function.comp_def] using hparts
  | alt ps =>
    have hbranches := map_children_visit (fun n => [Symbol.nonterminal n]) h
    simpa [visit, Visit.productions, productions, Symbol.rename, Function.comp_def] using hbranches
  | group id p =>
    have hchild := name_child h List.mem_cons_self
    simp [visit, productions, Symbol.rename, ← hchild]
  | star p min max =>
    have hchild := name_child h List.mem_cons_self
    have hstar : (((({} : Counts).passAll b).fresh .star).name = name ⟨b, .star p min max⟩) := hself
    simp [visit, productions, Symbol.rename, ← hchild, ← hstar]

/-! ### Rules -/

/-- A node introduces its name if it defines a nonterminal that the nodes before it do not. -/
theorem introduces_iff (h : (x.before ++ [x.node]).length < UInt32.size) : x.introduces ↔
    x.node.isReference = false ∧ x.visit.nonterminal ∉ definedNames {} x.before := by
  rw [mem_definedNames]
  obtain ⟨b, p⟩ := x
  cases p with
  | exprRef | strRef => simp [introduces, Pattern.isReference]
  | group id p =>
    cases id with
    | none => exact iff_of_true rfl ⟨rfl, not_defines_of_counted h rfl⟩
    | some id =>
      have hname : (visit ⟨b, .group (some id) p⟩).nonterminal = .capture id := rfl
      simp [introduces, Pattern.isReference, hname, defines_capture_iff]
  | _ => exact iff_of_true rfl ⟨rfl, not_defines_of_counted h rfl⟩

/-- The nonterminals with rules, each once, are those of the nodes that introduce them. -/
theorem eraseDups_definedNames (h : ps.length < UInt32.size) :
    (definedNames {} ps).eraseDups =
      ((row [] ps).filter introduces).map fun x => x.visit.nonterminal := by
  induction ps using List.reverseRecOn with
  | nil => rfl
  | append_singleton ps p ih =>
    have hps : ps.length < UInt32.size := by
      rw [List.length_append] at h
      omega
    have hrow : row [] (ps ++ [p]) = row [] ps ++ [⟨ps, p⟩] := row_append
    have hnames : definedNames {} (ps ++ [p]) =
        definedNames {} ps ++ (visit ⟨ps, p⟩).defined := by
      rw [definedNames_append]
      exact congrArg _ (List.append_nil _)
    have hiff := introduces_iff (x := ⟨ps, p⟩) h
    rw [hrow, hnames, List.filter_append, List.map_append, ← ih hps, List.filter_cons,
      List.filter_nil, Visit.defined]
    cases hr : p.isReference with
    | true =>
      have hno : introduces ⟨ps, p⟩ = false := by simpa [hr] using hiff
      simp [visit, hr, hno]
    | false =>
      simp only [hr, true_and] at hiff
      rw [if_neg (by simp [visit, hr]), Rule.eraseDups_concat]
      by_cases hn : (visit ⟨ps, p⟩).nonterminal ∈ definedNames {} ps
      · have hno : introduces ⟨ps, p⟩ = false := by simpa [hn] using hiff
        simp [hn, hno]
      · simp [hn, hiff.mpr hn]

/-- What comes before a node and below it are nodes of the pattern, so there is a number for each. -/
theorem stop_lt_of_mem_row (hn : root.nodes.length < UInt32.size) (hx : x ∈ row [] root.nodes) :
    x.stop < UInt32.size := by
  have hle := stop_le_of_mem_row root [] x hx
  rw [List.length_nil, Nat.zero_add] at hle
  exact Nat.lt_of_le_of_lt hle hn

theorem rename_flatMap_productions {xs : List Occurrence} (h : ∀ x ∈ xs, x.stop < UInt32.size) :
    ((xs.map visit).flatMap Visit.productions).map (·.map (Symbol.rename Nonterminal.name)) =
      xs.flatMap productions := by
  rw [List.flatMap_map, List.map_flatMap, List.flatMap_def, List.flatMap_def]
  congr 1
  apply List.map_congr_left
  intro x hx
  exact rename_productions_visit (h x hx)

theorem rename_productionsOf (hn : root.nodes.length < UInt32.size) (hx : x ∈ row [] root.nodes)
    (hi : x.introduces) :
    (Rule.productionsOf x.visit.nonterminal (ofPattern root).rules).map
      (·.map (Symbol.rename Nonterminal.name)) = (x.rule root).productions := by
  have hvisit : x.visit ∈ visits {} root.nodes :=
    map_visit_row (b := []) ▸ List.mem_map.mpr ⟨x, hx, rfl⟩
  have hown := rename_productions_visit (stop_lt_of_mem_row hn hx)
  have hstart : x.visit.nonterminal ≠ .start := Pattern.nonterminal_ne_start
  rw [Grammar.productionsOf_ofPattern hn, if_neg hstart]
  have hcounted : ∀ c i, x.visit.nonterminal = .node c i →
      (productionsFor x.visit.nonterminal (finished {} root)).map
        (·.map (Symbol.rename Nonterminal.name)) = x.productions := by
    intro c i hc
    rw [hc, productionsFor_of_counted (countP_le_size hn) hvisit hc, hown]
  obtain ⟨b, p⟩ := x
  cases p with
  | exprRef | strRef => cases hi
  | group id p =>
    cases id with
    | none => exact hcounted _ _ rfl
    | some id =>
      have hname : (visit ⟨b, .group (some id) p⟩).nonterminal = .capture id := rfl
      have hfinished : finished {} root = (completed [] root).map visit :=
        (map_visit_completed root []).symm
      rw [hname, productionsFor_capture, hfinished, List.filter_map]
      apply rename_flatMap_productions
      intro y hy
      have hmem := (completed_perm_row root []).mem_iff.mp (List.mem_filter.mp hy).1
      exact stop_lt_of_mem_row hn hmem
  | _ => exact hcounted _ _ rfl

end Occurrence

namespace Grammar

variable {root : Pattern}

/-- Building the grammar of a pattern gives the grammar that is read off the tree: the start symbol
first, then the names of the nodes as the walk opens them, each with the productions of its nodes.
There are to be no more nodes than the counters of nonterminals can tell apart. -/
theorem ofPattern_eq_tabulated (hn : root.nodes.length < UInt32.size) :
    (ofPattern root).rename Nonterminal.name = tabulated root := by
  have hlhs : (ofPattern root).rules.map Rule.lhs = .start ::
      ((Occurrence.row [] root.nodes).filter Occurrence.introduces).map
        fun x => x.visit.nonterminal := by
    rw [map_lhs_ofPattern, Occurrence.eraseDups_definedNames hn]
  have hrules := Rule.eq_map_productionsOf (nodup_lhs_ofPattern root)
  rw [hlhs, List.map_cons, List.map_map] at hrules
  rw [rename, tabulated, hrules, List.map_cons, List.map_map]
  congr 2
  · have hroot : (root.nonterminal {}).name = (Occurrence.mk [] root).name :=
      Occurrence.name_visit (Occurrence.stop_lt_of_mem_row hn (Occurrence.root_mem_row root))
    rw [Rule.rename, productionsOf_ofPattern hn, if_pos rfl]
    exact congrArg (fun n => (⟨"S", [[.nonterminal n]]⟩ : Rule String)) hroot
  · apply List.map_congr_left
    intro x hx
    obtain ⟨hrow, hi⟩ := List.mem_filter.mp hx
    have hname := Occurrence.name_visit (Occurrence.stop_lt_of_mem_row hn hrow)
    exact congrArg₂ Rule.mk hname (Occurrence.rename_productionsOf hn hrow hi)

/-- A capturing group in another one with the same number finishes first, and their rule stands where
the outer one begins. -/
theorem ofPattern_eq_tabulated_nested : ∃ p : Pattern, p.nodes.length < UInt32.size ∧
    (ofPattern p).rename Nonterminal.name = tabulated p ∧
    ((ofPattern p).rename Nonterminal.name).rules.map Rule.lhs =
      ["S", "A1", "G1", "C1", "Char1", "Char2", "R1", "Ncg1", "A2"] ∧
    ((ofPattern p).rename Nonterminal.name).productions "G1" =
      [[.nonterminal "Char2"], [.nonterminal "C1"]] := by
  let p : Pattern := .alt [.group (some 1) (.concat [.char 'a', .group (some 1) (.char 'b'),
    .exprRef 1]), .many (.group none (.alt []))]
  have hn : p.nodes.length < UInt32.size := by decide
  have heq : (ofPattern p).rename Nonterminal.name = tabulated p := ofPattern_eq_tabulated hn
  refine ⟨p, hn, heq, ?_, ?_⟩
  · rw [heq]
    decide
  · rw [heq]
    decide

end Grammar

end CaptureGrammar
