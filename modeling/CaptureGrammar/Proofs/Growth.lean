import CaptureGrammar.Proofs.NodeRules
import CaptureGrammar.Proofs.RuleIndex

/-!
Adding a node to a grammar under construction only adds.

Each state in which a node is added is what some passed nodes and some changes make of the first
state, and the changes concern the start symbol and nonterminals of the passed nodes. So a node that
is counted comes with a new nonterminal, and of the old ones only those of capturing groups can get
further productions.
-/
namespace CaptureGrammar

open Pattern (editsOfAll editsOfBranches nodesOfAll)
open Rule (pushedTo)

variable {root p q r : Pattern} {ps qs : List Pattern} {k : Counts} {m n : Nonterminal}
  {x y : Visit} {es fs : List (Edit Nonterminal)} {c : Category} {i : UInt32}

/-! ### Changes -/

theorem nodesOfAll_append : nodesOfAll (ps ++ qs) = nodesOfAll ps ++ nodesOfAll qs := by
  rw [Pattern.nodesOfAll_eq, List.flatMap_append, ← Pattern.nodesOfAll_eq, ← Pattern.nodesOfAll_eq]

theorem editsOfAll_append : editsOfAll k (ps ++ qs) =
    editsOfAll k ps ++ editsOfAll (k.passAll (nodesOfAll ps)) qs := by
  induction ps generalizing k with
  | nil => rfl
  | cons p ps ih => simp [editsOfAll, nodesOfAll, ih]

theorem editsOfBranches_append : editsOfBranches n k (ps ++ qs) =
    editsOfBranches n k ps ++ editsOfBranches n (k.passAll (nodesOfAll ps)) qs := by
  induction ps generalizing k with
  | nil => rfl
  | cons p ps ih => simp [editsOfBranches, nodesOfAll, ih]

/-- Of patterns in a row, the nodes before `q` come first and then those of `q`. -/
theorem nodesOfAll_isPrefix : nodesOfAll ps ++ q.nodes <+: nodesOfAll (ps ++ q :: qs) := by
  rw [nodesOfAll_append, nodesOfAll, ← List.append_assoc]
  exact List.prefix_append _ _

theorem editsOfAll_isPrefix : editsOfAll k ps ++ q.edits (k.passAll (nodesOfAll ps)) <+:
    editsOfAll k (ps ++ q :: qs) := by
  rw [editsOfAll_append, editsOfAll, ← List.append_assoc]
  exact List.prefix_append _ _

theorem editsOfBranches_isPrefix :
    editsOfBranches n k ps ++ q.edits (k.passAll (nodesOfAll ps)) <+:
      editsOfBranches n k (ps ++ q :: qs) := by
  rw [editsOfBranches_append, editsOfBranches, ← List.append_assoc]
  exact List.prefix_append _ _

theorem defines_append :
    Defines k (ps ++ qs) n ↔ Defines k ps n ∨ Defines (k.passAll ps) qs n := by
  simp only [Defines, visits_append, List.mem_append, or_and_right, exists_or]

/-- A pattern changes the rules of its own nodes. -/
theorem mem_targets_edits : n ∈ targets (p.edits k) ↔ Defines k p.nodes n := by
  have h := eraseDups_targets p k []
  rw [List.nil_append, List.nil_append] at h
  rw [← List.mem_eraseDups, h, List.mem_eraseDups, mem_definedNames]

theorem mem_targets_editsOfAll :
    n ∈ targets (editsOfAll k ps) ↔ Defines k (nodesOfAll ps) n := by
  induction ps generalizing k with
  | nil => simp [targets, editsOfAll, nodesOfAll, Defines, visits]
  | cons p ps ih =>
    rw [editsOfAll, nodesOfAll, targets_append, List.mem_append, mem_targets_edits, ih,
      defines_append]

theorem mem_targets_editsOfBranches (h : n ∈ targets (editsOfBranches m k ps)) :
    n = m ∨ Defines k (nodesOfAll ps) n := by
  induction ps generalizing k with
  | nil => cases h
  | cons p ps ih =>
    rw [editsOfBranches, targets_append, targets_cons, List.mem_append, List.mem_cons,
      mem_targets_edits] at h
    rw [nodesOfAll, defines_append]
    rcases h with h | h | h
    · exact .inr (.inl h)
    · exact .inl h
    · exact (ih h).imp_right .inr

theorem defines_cons_self (h : p.isReference = false) :
    Defines k (p :: ps) (p.nonterminal k) := ⟨⟨k, p⟩, List.mem_cons_self, h, rfl⟩

theorem Defines.cons (h : Defines (k.pass p) ps n) : Defines k (p :: ps) n := by
  obtain ⟨x, hx, hxr, hxn⟩ := h
  exact ⟨x, List.mem_cons_of_mem _ hx, hxr, hxn⟩

/-- Patterns in a row are come to with the nodes before them passed. -/
theorem exists_append_of_mem_entries (h : y ∈ entries k ps) :
    ∃ qs rs, ps = qs ++ y.node :: rs ∧ y.counts = k.passAll (nodesOfAll qs) := by
  induction ps generalizing k with
  | nil => cases h
  | cons p ps ih =>
    rcases List.mem_cons.mp h with rfl | h
    · exact ⟨[], ps, rfl, rfl⟩
    · obtain ⟨qs, rs, hps, hy⟩ := ih h
      refine ⟨p :: qs, rs, congrArg (p :: ·) hps, ?_⟩
      rw [hy, nodesOfAll, Counts.passAll_append]

/-! ### Numbered nonterminals -/

def Nonterminal.category? : Nonterminal → Option Category
  | .node c _ => some c
  | .start | .capture _ => none

/-- As many numbers of a category are given out as nodes of it are passed. -/
theorem countP_allocations : (allocations k ps).countP (·.category? = some c) =
    ps.countP (·.category? = some c) := by
  induction ps generalizing k with
  | nil => rfl
  | cons p ps ih =>
    rw [allocations_cons, List.countP_append, ih, List.countP_cons, Nat.add_comm]
    congr 1
    cases hp : p.category? with
    | none => rfl
    | some d => simp [Counts.fresh, Nonterminal.category?]

/-- What a table of rules may become when the groups with the numbers `groups` are added. -/
structure Rule.Grows (rs rs' : List (Rule Nonterminal)) (groups : List GroupId) : Prop where
  /-- Each rule has its place and its productions still. Only those of the groups have more. -/
  kept : ∀ (i : Nat) (r : Rule Nonterminal), rs[i]? = some r →
    ∃ qs, rs'[i]? = some ⟨r.lhs, r.productions ++ qs⟩ ∧
      (qs ≠ [] → ∃ id ∈ groups, r.lhs = .capture id)
  /-- New rules stand behind the old ones. -/
  lhs : rs.map Rule.lhs <+: rs'.map Rule.lhs
  names : (rs'.map (·.lhs.name)).Nodup

namespace Builder

/-! ### The states in which nodes are added -/

/-- The nodes that adding a node adds itself, each with the state in which it is added. -/
inductive Calls : Pattern → Builder → Pattern → Builder → Prop where
  | part {ps qs : List Pattern} {q : Pattern} {b : Builder} :
    Calls (.concat (ps ++ q :: qs)) b q (addParts ps (allocate .concat b).2).2
  | branch {ps qs : List Pattern} {q : Pattern} {b : Builder} : Calls (.alt (ps ++ q :: qs)) b q
      (addBranches (allocate .alt b).1 ps (allocate .alt b).2).2
  | body {id : Option GroupId} {q : Pattern} {b : Builder} :
    Calls (.group id q) b q (allocateGroup id b).2
  | item {q : Pattern} {min : UInt32} {max : Option UInt32} {b : Builder} :
    Calls (.star q min max) b q (allocate .star b).2

/-- The nodes that are added in building the grammar of `root`, each with the state in which it is
added. -/
inductive Enters (root : Pattern) : Pattern → Builder → Prop where
  | root : Enters root root (define .start {}).2
  | call {p q : Pattern} {b b' : Builder} (h : Enters root p b) (hq : Calls p b q b') :
    Enters root q b'

variable {b b' b'' : Builder} {id : Option GroupId} {min : UInt32} {max : Option UInt32}

/-- When `p` is added in the state `b`, the nodes `ps` are passed and the changes `es` are made
before `q` is added in the state `b'`. -/
structure Leads (b : Builder) (p : Pattern) (ps : List Pattern) (es : List (Edit Nonterminal))
    (q : Pattern) (b' : Builder) : Prop where
  state : b' = b.extend ps es
  nodes : ps ++ q.nodes <+: p.nodes
  edits : es ++ q.edits (b.counts.passAll ps) <+: p.edits b.counts
  defined : ∀ n ∈ targets es, Defines b.counts ps n

namespace Leads

theorem counts (h : Leads b p ps es q b') : b'.counts = b.counts.passAll ps := by
  rw [h.state]
  rfl

theorem refl : Leads b p [] [] p b where
  state := rfl
  nodes := List.prefix_rfl
  edits := List.prefix_rfl
  defined := nofun

theorem trans (h : Leads b p ps es q b') (h' : Leads b' q qs fs r b'') :
    Leads b p (ps ++ qs) (es ++ fs) r b'' where
  state := by rw [h'.state, h.state, extend_extend]
  nodes := by
    rw [List.append_assoc]
    exact ((List.prefix_append_right_inj ps).mpr h'.nodes).trans h.nodes
  edits := by
    have hq := h'.edits
    rw [h.counts] at hq
    rw [List.append_assoc, Counts.passAll_append]
    exact ((List.prefix_append_right_inj es).mpr hq).trans h.edits
  defined := by
    intro n hn
    rw [targets_append, List.mem_append] at hn
    rw [defines_append, ← h.counts]
    exact hn.imp (h.defined n) (h'.defined n)

theorem part : Leads b (.concat (ps ++ q :: qs)) (.concat (ps ++ q :: qs) :: nodesOfAll ps)
    (.define (b.counts.fresh .concat) :: editsOfAll (b.counts.next .concat) ps) q
    (addParts ps (allocate .concat b).2).2 where
  state := by
    rw [run_allocate (p := .concat (ps ++ q :: qs)) rfl, run_addParts, extend_extend]
    rfl
  nodes := (List.prefix_cons_inj _).mpr nodesOfAll_isPrefix
  edits := (List.prefix_cons_inj _).mpr (editsOfAll_isPrefix.trans (List.prefix_append _ _))
  defined := by
    intro n hn
    rcases List.mem_cons.mp hn with rfl | hn
    · exact defines_cons_self (p := .concat _) rfl
    · exact Defines.cons (p := .concat _) (mem_targets_editsOfAll.mp hn)

theorem branch : Leads b (.alt (ps ++ q :: qs)) (.alt (ps ++ q :: qs) :: nodesOfAll ps)
    (.define (b.counts.fresh .alt) ::
      editsOfBranches (b.counts.fresh .alt) (b.counts.next .alt) ps) q
    (addBranches (allocate .alt b).1 ps (allocate .alt b).2).2 where
  state := by
    rw [run_allocate (p := .alt (ps ++ q :: qs)) rfl, run_addBranches, extend_extend]
    rfl
  nodes := (List.prefix_cons_inj _).mpr nodesOfAll_isPrefix
  edits := (List.prefix_cons_inj _).mpr editsOfBranches_isPrefix
  defined := by
    -- The branches before `q` are pushed to the alternation, which is a passed node itself.
    intro n hn
    rcases List.mem_cons.mp hn with rfl | hn
    · exact defines_cons_self (p := .alt _) rfl
    · rcases mem_targets_editsOfBranches hn with rfl | hn
      · exact defines_cons_self (p := .alt _) rfl
      · exact Defines.cons (p := .alt _) hn

theorem body : Leads b (.group id q) [.group id q]
    [.define ((Pattern.group id q).nonterminal b.counts)] q (allocateGroup id b).2 where
  state := by rw [run_allocateGroup q]
  nodes := List.prefix_rfl
  edits := (List.prefix_cons_inj _).mpr (List.prefix_append _ _)
  defined := by
    intro n hn
    cases List.mem_singleton.mp hn
    exact defines_cons_self (by cases id <;> rfl)

theorem item : Leads b (.star q min max) [.star q min max]
    [.define (b.counts.fresh .star)] q (allocate .star b).2 where
  state := by rw [run_allocate (p := .star q min max) rfl]
  nodes := List.prefix_rfl
  edits := (List.prefix_cons_inj _).mpr (List.prefix_append _ _)
  defined := by
    intro n hn
    cases List.mem_singleton.mp hn
    exact defines_cons_self (p := .star q min max) rfl

end Leads

theorem Calls.exists_leads (h : Calls p b q b') : ∃ ps es, Leads b p ps es q b' := by
  cases h with
  | part => exact ⟨_, _, .part⟩
  | branch => exact ⟨_, _, .branch⟩
  | body => exact ⟨_, _, .body⟩
  | item => exact ⟨_, _, .item⟩

/-- Each state in which a node is added is made by nodes and changes on the way to it. -/
theorem Enters.exists_leads (h : Enters root p b) :
    ∃ ps es, Leads (define .start {}).2 root ps es p b := by
  induction h with
  | root => exact ⟨[], [], .refl⟩
  | call _ hq ih =>
    obtain ⟨ps, es, hp⟩ := ih
    obtain ⟨qs, fs, hq⟩ := hq.exists_leads
    exact ⟨ps ++ qs, es ++ fs, hp.trans hq⟩

/-- A node adds each of its children. -/
theorem exists_calls_of_mem_children (hy : y ∈ (Visit.mk b.counts p).children) :
    ∃ b', Calls p b y.node b' ∧ b'.counts = y.counts := by
  cases p with
  | concat ps =>
    obtain ⟨qs, rs, rfl, hcounts⟩ := exists_append_of_mem_entries hy
    exact ⟨_, .part, Leads.part.counts.trans hcounts.symm⟩
  | alt ps =>
    obtain ⟨qs, rs, rfl, hcounts⟩ := exists_append_of_mem_entries hy
    exact ⟨_, .branch, Leads.branch.counts.trans hcounts.symm⟩
  | group id p =>
    cases List.mem_singleton.mp hy
    exact ⟨_, .body, Leads.body.counts⟩
  | star p min max =>
    cases List.mem_singleton.mp hy
    have h : Leads b (.star p min max) _ _ p _ := .item
    exact ⟨_, .item, h.counts⟩
  | char | exprRef | strRef => cases hy

/-- A node is added just when the walk comes to it. -/
theorem exists_enters_iff :
    (∃ b, Enters root p b ∧ b.counts = k) ↔ ⟨k, p⟩ ∈ visits {} root.nodes := by
  constructor
  · rintro ⟨b, hb, rfl⟩
    obtain ⟨ps, es, hl⟩ := hb.exists_leads
    obtain ⟨qs, hqs⟩ := hl.nodes
    rw [← hqs, visits_append, visits_append, hl.counts]
    exact List.mem_append_left _ (List.mem_append_right _ root_mem_visits)
  · refine forall_mem_visits (motive := fun x => ∃ b, Enters root x.node b ∧ b.counts = x.counts)
      root {} ⟨_, .root, rfl⟩ ?_ _
    rintro ⟨k, p⟩ _ ⟨b, hb, rfl⟩ y hy
    obtain ⟨b', hcall, hcounts⟩ := exists_calls_of_mem_children hy
    exact ⟨b', hb.call hcall, hcounts⟩

/-! ### Old and new nonterminals -/

/-- No two rules have one nonterminal. -/
theorem Enters.nodup_lhs (h : Enters root p b) : (b.rules.map Rule.lhs).Nodup := by
  obtain ⟨ps, es, hl⟩ := h.exists_leads
  rw [hl.state]
  exact Rule.nodup_editAll (List.pairwise_singleton _ Nonterminal.start)

/-- While no counter has started over, a node that is counted comes with a nonterminal that has no
rule. -/
theorem Enters.notMem_lhs (h : Enters root p b)
    (hcounts : (add p b).2.allocated.countP (·.category? = some c) ≤ UInt32.size)
    (hx : x ∈ visits b.counts p.nodes) (hxn : x.nonterminal = .node c i) :
    .node c i ∉ b.rules.map Rule.lhs := by
  obtain ⟨ps, es, hl⟩ := h.exists_leads
  have hallocated : (add p b).2.allocated = (allocations {} (ps ++ p.nodes)).reverse := by
    rw [run_add, hl.state, extend_extend]
    exact List.append_nil _
  rw [hallocated, List.countP_reverse, countP_allocations] at hcounts
  rw [hl.state] at hx ⊢
  intro hmem
  rcases Rule.mem_lhs_editAll.mp hmem with hstart | htarget
  · cases List.mem_singleton.mp hstart
  · exact not_defines_of_mem_visits hcounts hx hxn (hl.defined _ htarget)

/-- Only a capturing group gives further productions to a rule that was there before. -/
theorem Enters.eq_capture_of_pushedTo_ne_nil (h : Enters root p b)
    (hcounts : ∀ c, (add p b).2.allocated.countP (·.category? = some c) ≤ UInt32.size)
    (hn : n ∈ b.rules.map Rule.lhs) (hpushed : pushedTo n (p.edits b.counts) ≠ []) :
    ∃ id ∈ p.captures, n = .capture id := by
  obtain ⟨q, hq⟩ := List.exists_mem_of_ne_nil _ hpushed
  obtain ⟨x, hx, rfl, hxq⟩ := (p.push_mem_edits b.counts).mp (Rule.mem_pushedTo.mp hq)
  have href : x.node.isReference = false := by
    rw [Bool.eq_false_iff]
    intro href
    rw [productions_of_isReference href] at hxq
    cases hxq
  rcases category?_or_captureId? href with ⟨c, hc⟩ | ⟨id, hid⟩
  · have hxn : x.nonterminal = .node c (x.counts.get c + 1) :=
      Pattern.nonterminal_eq_node_iff.mpr ⟨hc, rfl⟩
    rw [hxn] at hn
    exact (h.notMem_lhs (hcounts c) hx hxn hn).elim
  · have hmem : id ∈ p.captures :=
      List.mem_filterMap.mpr ⟨x.node, mem_nodes_of_mem_visits hx, hid⟩
    exact ⟨id, hmem, nonterminal_of_captureId hid⟩

theorem rules_add : (add p b).2.rules = Rule.editAll b.rules (p.edits b.counts) := by
  rw [run_add]
  rfl

theorem Enters.grows (h : Enters root p b)
    (hcounts : ∀ c, (add p b).2.allocated.countP (·.category? = some c) ≤ UInt32.size) :
    Rule.Grows b.rules (add p b).2.rules p.captures where
  kept := by
    intro i r hr
    have hmem : r.lhs ∈ b.rules.map Rule.lhs := List.mem_map_of_mem (List.mem_of_getElem? hr)
    rw [rules_add]
    exact ⟨pushedTo r.lhs (p.edits b.counts), Rule.getElem?_editAll h.nodup_lhs hr,
      h.eq_capture_of_pushedTo_ne_nil hcounts hmem⟩
  lhs := by
    rw [rules_add]
    exact Rule.map_lhs_isPrefix_editAll
  names := by
    have hnodup : ((add p b).2.rules.map Rule.lhs).Nodup := by
      rw [rules_add]
      exact Rule.nodup_editAll h.nodup_lhs
    rw [← Function.comp_def Nonterminal.name Rule.lhs, ← List.map_map]
    exact List.Pairwise.map _ (fun _ _ hne => hne ∘ Nonterminal.name_injective) hnodup

/-- A node that is numbered gets a name that neither a rule nor a group has. -/
theorem Enters.name_ne (h : Enters root p b)
    (hcounts : (add p b).2.allocated.countP (·.category? = some c) ≤ UInt32.size)
    (hc : p.category? = some c) :
    (∀ r ∈ b.rules, r.lhs.name ≠ (allocate c b).1.name) ∧
      ∀ id, (Nonterminal.capture id).name ≠ (allocate c b).1.name := by
  rw [run_allocate hc]
  constructor
  · intro r hr hname
    have hn : p.nonterminal b.counts = b.counts.fresh c :=
      Pattern.nonterminal_eq_node_iff.mpr ⟨hc, by simp [Counts.get_next]⟩
    have hmem : b.counts.fresh c ∈ b.rules.map Rule.lhs :=
      List.mem_map.mpr ⟨r, hr, Nonterminal.name_injective hname⟩
    exact h.notMem_lhs hcounts root_mem_visits hn hmem
  · intro id hname
    cases Nonterminal.name_injective hname

/-- A node that is no reference has a rule once it is added. -/
theorem mem_lhs_add (hp : p.isReference = false) :
    (add p b).1 ∈ (add p b).2.rules.map Rule.lhs := by
  rw [rules_add, run_add, Rule.mem_lhs_editAll]
  have hdefines : Defines b.counts p.nodes (p.nonterminal b.counts) := by
    rw [Pattern.nodes_eq]
    exact defines_cons_self hp
  exact .inr (mem_targets_edits.mpr hdefines)

/-- While a node is added, an index of the rules by their names finds each where it is. -/
theorem Enters.exists_index (h : Enters root p b) : ∃ done,
    done ++ p.edits b.counts <+: root.allEdits ∧
    ∀ es t, t = IndexedRules.editAll {} (done ++ es) →
      t.InStep ∧ t.rules = Rule.editAll b.rules es := by
  obtain ⟨ps, es, hl⟩ := h.exists_leads
  refine ⟨.define .start :: es, ?_, ?_⟩
  · rw [hl.counts]
    exact (List.prefix_cons_inj _).mpr (hl.edits.trans (List.prefix_append _ _))
  · rintro fs t rfl
    refine IndexedRules.inStep_empty.editAll.imp_right fun hrules => ?_
    rw [hrules, Rule.editAll_append, hl.state]
    rfl

/-- Adding a node only adds, as long as no counter starts over. Old rules keep their places and
productions, and only those of capturing groups among the nodes get more; new rules stand behind
them, under names of their own. The name of a numbered node is new, and every node but a reference
has a rule in the end. An index that makes the same changes finds each rule by its name. -/
theorem add_grows (h : Enters root p b)
    (hcounts : ∀ c, (add p b).2.allocated.countP (·.category? = some c) ≤ UInt32.size) :
    Rule.Grows b.rules (add p b).2.rules p.captures ∧
    (∀ c, p.category? = some c → (∀ r ∈ b.rules, r.lhs.name ≠ (allocate c b).1.name) ∧
      ∀ id, (Nonterminal.capture id).name ≠ (allocate c b).1.name) ∧
    (p.isReference = false → (add p b).1 ∈ (add p b).2.rules.map Rule.lhs) ∧
    (add p b).2.rules = Rule.editAll b.rules (p.edits b.counts) ∧
    ∃ done, done ++ p.edits b.counts <+: root.allEdits ∧
      ∀ es t, t = IndexedRules.editAll {} (done ++ es) →
        t.InStep ∧ t.rules = Rule.editAll b.rules es ∧
        ∀ n, ∃ r, (t.locate n).2.rules[(t.locate n).1]? = some r ∧ r.lhs = n := by
  obtain ⟨done, hdone, hindex⟩ := h.exists_index
  refine ⟨h.grows hcounts, fun c hc => h.name_ne (hcounts c) hc, mem_lhs_add, rules_add, done,
    hdone, fun es t ht => ?_⟩
  obtain ⟨hstep, hrules⟩ := hindex es t ht
  exact ⟨hstep, hrules, fun n => hstep.getElem?_locate⟩

/-- Of two groups with one number, the second gives its production to the rule of the first. -/
theorem add_grows_shared_number :
    let p := Pattern.group (some 1) (.char 'a')
    let q := Pattern.group (some 1) (.char 'b')
    let b := (addParts [p] (allocate .concat (define .start {}).2).2).2
    Enters (.concat [p, q]) q b ∧
    b.rules[2]? = some ⟨.capture 1, [[.nonterminal (.node .char 1)]]⟩ ∧
    Rule.Grows b.rules (add q b).2.rules [1] ∧
    (add q b).2.rules[2]? = some ⟨.capture 1,
      [[.nonterminal (.node .char 1)], [.nonterminal (.node .char 2)]]⟩ := by
  intro p q b
  have h : Enters (.concat [p, q]) q b := .call .root (@Calls.part [p] [] q _)
  have hcounts : ∀ c, (add q b).2.allocated.countP (·.category? = some c) ≤ UInt32.size := by
    intro c
    cases c <;> decide
  exact ⟨h, rfl, (add_grows h hcounts).1, rfl⟩

end Builder

end CaptureGrammar
