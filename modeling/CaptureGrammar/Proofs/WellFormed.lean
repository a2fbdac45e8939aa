import CaptureGrammar.Proofs.Dependence
import CaptureGrammar.Proofs.Mentions
import CaptureGrammar.Proofs.NonterminalName
import CaptureGrammar.Proofs.ProductionOrder
import CaptureGrammar.Proofs.RoundTrip
import Mathlib.Data.List.Count
import Mathlib.Data.List.Nodup
import Mathlib.Logic.Relation

/-!
Every grammar of a pattern is well formed, and stays so when its nonterminals are written as names.
-/
namespace CaptureGrammar

open Grammar (ofPattern)
open Pattern (parse)

/-- What holds of the grammar `g` of a pattern `p` whose nonterminals are written by `f`. -/
structure Grammar.WellFormed {ν : Type} [DecidableEq ν] (f : Nonterminal → ν) (p : Pattern)
    (g : Grammar ν) : Prop where
  start_eq : g.start = f .start
  /-- No nonterminal has two rules. -/
  nodup_lhs : (g.rules.map Rule.lhs).Nodup
  rule?_lhs : ∀ r ∈ g.rules, g.rule? r.lhs = some r
  /-- The start symbol leads to every rule. -/
  reachable : ∀ r ∈ g.rules, Relation.ReflTransGen g.Mentions g.start r.lhs
  start_notMem : g.start ∉ g.mentioned
  /-- A counted node is mentioned for its parent only, and a repetition for itself too. -/
  count_node : ∀ c i, f (.node c i) ∈ g.rules.map Rule.lhs →
    g.mentioned.count (f (.node c i)) = if c = .star then 2 else 1
  count_own : ∀ r ∈ g.rules, ∀ i, r.lhs = f (.node .star i) → r.mentioned.count r.lhs = 1
  /-- Groups with one number and the references to it are all mentioned as one. -/
  count_capture : ∀ id, g.mentioned.count (f (.capture id)) = p.nodes.countP (·.concerns id)
  productions_ne_nil : .alt [] ∉ p.nodes → ∀ r ∈ g.rules, r.productions ≠ []

variable {root p : Pattern} {k : Counts} {n : Nonterminal} {x y : Visit} {c : Category} {i : UInt32}

/-! ### Reachable rules -/

theorem mentions_child (hx : x ∈ visits {} root.nodes) (hy : y ∈ x.children) :
    (ofPattern root).Mentions x.nonterminal y.nonterminal := by
  obtain ⟨q, hq, hmem⟩ := exists_production_mentions_iff.mpr (.inl ⟨y, hy, rfl⟩)
  obtain ⟨r, hr, hrn, hrq⟩ := Grammar.mem_productions_ofPattern.mpr (.inr ⟨x, hx, rfl, hq⟩)
  exact ⟨r, hr, hrn, q, hrq, hmem⟩

theorem mentions_root (root : Pattern) :
    (ofPattern root).Mentions .start (root.nonterminal {}) := by
  obtain ⟨r, hr, hrn, hrq⟩ := Grammar.mem_productions_ofPattern.mpr (.inl ⟨rfl, rfl⟩)
  exact ⟨r, hr, hrn, _, hrq, List.mem_singleton_self _⟩

theorem reachable_of_mem_visits (hx : x ∈ visits {} root.nodes) :
    Relation.ReflTransGen (ofPattern root).Mentions .start x.nonterminal := by
  refine forall_mem_visits
    (motive := fun y => Relation.ReflTransGen (ofPattern root).Mentions .start y.nonterminal)
    root {} (.single (mentions_root root)) ?_ x hx
  intro y hy hreach z hz
  exact hreach.tail (mentions_child hy hz)

theorem reachable_lhs (hn : n ∈ (ofPattern root).rules.map Rule.lhs) :
    Relation.ReflTransGen (ofPattern root).Mentions .start n := by
  rcases Grammar.mem_lhs_ofPattern.mp hn with rfl | ⟨x, hx, -, rfl⟩
  · exact .refl
  · exact reachable_of_mem_visits hx

/-! ### The rules of nodes -/

theorem nonterminal_ne_of_mem_children (hn : root.nodes.length < UInt32.size)
    (hx : x ∈ visits {} root.nodes) (hc : x.nonterminal = .node c i) (hy : y ∈ x.children) :
    y.nonterminal ≠ .node c i := by
  intro hyc
  have hmem : y ∈ visits {} root.nodes := closed_visits_nodes root {} x hx hy
  have heq : y = x := visit_eq_of_nonterminal_eq hn hmem hx hyc hc
  have hchild : y.node ∈ x.node.children := map_node_children ▸ List.mem_map.mpr ⟨y, hy, rfl⟩
  have hlt := Pattern.sizeOf_lt_of_mem_children hchild
  rw [heq] at hlt
  exact Nat.lt_irrefl _ hlt

theorem productionsOf_lhs {r : Rule Nonterminal} (hr : r ∈ (ofPattern root).rules) :
    Rule.productionsOf r.lhs (ofPattern root).rules = r.productions := by
  rw [Rule.productionsOf, Rule.find?_lhs (Grammar.nodup_lhs_ofPattern root) hr]
  rfl

/-- A repetition is mentioned once in its own rule, as its body is another node. -/
theorem count_mentioned_own (hn : root.nodes.length < UInt32.size) {r : Rule Nonterminal}
    (hr : r ∈ (ofPattern root).rules) (hlhs : r.lhs = .node .star i) :
    r.mentioned.count r.lhs = 1 := by
  obtain ⟨x, hx, hxn⟩ := Grammar.exists_visit_of_node_mem_lhs (List.mem_map.mpr ⟨r, hr, hlhs⟩)
  have hproductions : r.productions = x.productions := by
    rw [← productionsOf_lhs hr, hlhs, Grammar.productionsOf_ofPattern hn, if_neg (by simp),
      productionsFor_of_counted (countP_le_size hn) hx hxn]
  have hrule : r.mentioned = x.mentioned := congrArg _ hproductions
  have hloops : x.loops = [.node .star i] := by
    rw [Visit.loops, if_pos (Pattern.nonterminal_eq_node_iff.mp hxn).1, hxn]
  have hbody : (x.children.map Visit.nonterminal).count (.node .star i) = 0 := by
    rw [List.count_eq_zero]
    intro hself
    obtain ⟨y, hy, hyn⟩ := List.mem_map.mp hself
    exact nonterminal_ne_of_mem_children hn hx hxn hy hyn
  rw [hlhs, hrule, x.mentioned_eq, List.count_append, hbody, hloops]
  simp

theorem productions_ne_nil (hx : x.node.isReference = false) (ha : x.node ≠ .alt []) :
    x.productions ≠ [] := by
  obtain ⟨k, p⟩ := x
  cases p with
  | alt ps =>
    cases ps with
    | nil => exact (ha rfl).elim
    | cons p ps => exact List.cons_ne_nil _ _
  | exprRef | strRef => cases hx
  | _ => exact List.cons_ne_nil _ _

theorem rule_productions_ne_nil (ha : .alt [] ∉ root.nodes) {r : Rule Nonterminal}
    (hr : r ∈ (ofPattern root).rules) : r.productions ≠ [] := by
  have hproduction : ∃ q, (r.lhs = .start ∧ q = [.nonterminal (root.nonterminal {})]) ∨
      Produces {} root.nodes r.lhs q := by
    rcases Grammar.mem_lhs_ofPattern.mp (List.mem_map.mpr ⟨r, hr, rfl⟩) with hs | ⟨x, hx, hxr, hxn⟩
    · exact ⟨_, .inl ⟨hs, rfl⟩⟩
    · have hnode : x.node ≠ .alt [] := fun h => ha (h ▸ mem_nodes_of_mem_visits hx)
      obtain ⟨q, hq⟩ := List.exists_mem_of_ne_nil _ (productions_ne_nil hxr hnode)
      exact ⟨q, .inr ⟨x, hx, hxn, hq⟩⟩
  obtain ⟨q, hq⟩ := hproduction
  have hmem := (Rule.mem_productionsOf (Grammar.nodup_lhs_ofPattern root)).mpr
    (Grammar.mem_productions_ofPattern.mpr hq)
  rw [productionsOf_lhs hr] at hmem
  exact List.ne_nil_of_mem hmem

theorem Grammar.wellFormed_id (hn : root.nodes.length < UInt32.size) :
    (ofPattern root).WellFormed id root where
  start_eq := rfl
  nodup_lhs := nodup_lhs_ofPattern root
  rule?_lhs _ hr := Rule.find?_lhs (nodup_lhs_ofPattern root) hr
  reachable r hr := reachable_lhs (List.mem_map.mpr ⟨r, hr, rfl⟩)
  start_notMem := start_notMem_mentioned
  count_node _ _ h := count_mentioned_node hn h
  count_own _ hr _ h := count_mentioned_own hn hr h
  count_capture _ := count_mentioned_capture
  productions_ne_nil ha _ hr := rule_productions_ne_nil ha hr

/-! ### Renaming -/

section

variable {ν μ : Type} {f : ν → μ} {e : Nonterminal → ν} {g : Grammar ν}

theorem filterMap_nonterminal_rename (f : ν → μ) (q : Production ν) :
    (q.map (Symbol.rename f)).filterMap Symbol.nonterminal? =
      (q.filterMap Symbol.nonterminal?).map f := by
  rw [List.filterMap_map, List.map_filterMap]
  apply List.filterMap_congr
  intro s _
  cases s <;> rfl

theorem Rule.mentioned_rename (f : ν → μ) (r : Rule ν) :
    (r.rename f).mentioned = r.mentioned.map f := by
  simp only [mentioned, rename, List.flatMap_map, List.map_flatMap, filterMap_nonterminal_rename]

theorem Grammar.mentioned_rename (f : ν → μ) (g : Grammar ν) :
    (g.rename f).mentioned = g.mentioned.map f := by
  have hrules : (g.rename f).mentioned = (g.rules.map (Rule.rename f)).flatMap Rule.mentioned := rfl
  rw [hrules, List.flatMap_map]
  simp only [Rule.mentioned_rename]
  exact List.map_flatMap.symm

/-- Names that tell nonterminals apart keep a grammar well formed. -/
theorem Grammar.WellFormed.rename [DecidableEq ν] [DecidableEq μ] (hf : Function.Injective f)
    (h : g.WellFormed e p) : (g.rename f).WellFormed (f ∘ e) p := by
  have hnodup : ((g.rename f).rules.map Rule.lhs).Nodup := by
    rw [map_lhs_rename]
    exact h.nodup_lhs.map hf
  have hcount : ∀ n, (g.rename f).mentioned.count (f n) = g.mentioned.count n := by
    intro n
    rw [mentioned_rename]
    exact List.count_map_of_injective _ f hf n
  constructor
  case start_eq => exact congrArg f h.start_eq
  case nodup_lhs => exact hnodup
  case rule?_lhs =>
    intro r hr
    exact Rule.find?_lhs hnodup hr
  case reachable =>
    rw [Grammar.rename, List.forall_mem_map]
    intro r hr
    have hstep : ∀ a b, g.Mentions a b → (g.rename f).Mentions (f a) (f b) :=
      fun a b hab => mentions_rename.mpr ⟨a, b, rfl, rfl, hab⟩
    exact Relation.ReflTransGen.lift f hstep _ _ (h.reachable r hr)
  case start_notMem =>
    rw [mentioned_rename]
    exact fun hmem => h.start_notMem ((List.mem_map_of_injective hf).mp hmem)
  case count_node =>
    intro c i hc
    rw [map_lhs_rename] at hc
    rw [Function.comp_apply, hcount]
    exact h.count_node c i ((List.mem_map_of_injective hf).mp hc)
  case count_own =>
    rw [Grammar.rename, List.forall_mem_map]
    intro r hr i hi
    rw [Rule.mentioned_rename]
    exact (List.count_map_of_injective _ f hf r.lhs).trans (h.count_own r hr i (hf hi))
  case count_capture =>
    intro id
    rw [Function.comp_apply, hcount]
    exact h.count_capture id
  case productions_ne_nil =>
    rw [Grammar.rename, List.forall_mem_map]
    intro ha r hr hnil
    exact h.productions_ne_nil ha r hr (List.map_eq_nil_iff.mp hnil)

end

/-- The text of a pattern gives alternatives at least two branches. -/
theorem alt_nil_notMem_nodes {s : String} {r : Pattern.Parsed} (h : parse s = .ok r) :
    .alt [] ∉ r.root.nodes := by
  obtain ⟨hfits, -⟩ := Pattern.parse_eq_ok.mp h
  intro hmem
  exact absurd (hfits.1.of_mem hmem).1 (by decide)

/-- The grammar of a pattern is well formed, and so is the grammar with the written names. There are
to be no more nodes than the counters of nonterminals can tell apart. Patterns that text spells have
no alternatives without branches, so all their rules have productions. -/
theorem Grammar.wellFormed_ofPattern (hn : root.nodes.length < UInt32.size) :
    (ofPattern root).WellFormed id root ∧
      ((ofPattern root).rename Nonterminal.name).WellFormed Nonterminal.name root ∧
      ∀ s r, parse s = .ok r → .alt [] ∉ r.root.nodes := by
  have hid : (ofPattern root).WellFormed id root := wellFormed_id hn
  have hname : Function.Injective Nonterminal.name := fun _ _ => Nonterminal.name_injective
  exact ⟨hid, hid.rename hname, fun _ _ => alt_nil_notMem_nodes⟩

/-- Two groups with one number and a reference to it, a reference to no group, and a repetition. -/
theorem Grammar.wellFormed_ofPattern_shared : ∃ p : Pattern, p.nodes.length < UInt32.size ∧
    .alt [] ∉ p.nodes ∧
    ((ofPattern p).rename Nonterminal.name).WellFormed Nonterminal.name p ∧
    ((ofPattern p).rename Nonterminal.name).mentioned.count "G1" = 3 ∧
    ((ofPattern p).rename Nonterminal.name).mentioned.count "G2" = 1 ∧
    ((ofPattern p).rename Nonterminal.name).mentioned.count "R1" = 2 := by
  let p : Pattern := .concat [.group (some 1) (.many (.char 'a')), .exprRef 1, .strRef 2,
    .group (some 1) (.alt [.char 'b', .char 'c'])]
  have hn : p.nodes.length < UInt32.size := by decide
  have hbranches : .alt [] ∉ p.nodes := by
    simp [p, Pattern.many, Pattern.nodes, Pattern.nodesOfAll]
  obtain ⟨-, hname, -⟩ := wellFormed_ofPattern hn
  exact ⟨p, hn, hbranches, hname, by decide, by decide, by decide⟩

end CaptureGrammar
