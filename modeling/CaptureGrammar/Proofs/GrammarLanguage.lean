import CaptureGrammar.Pattern.Language
import CaptureGrammar.Proofs.Derivation
import CaptureGrammar.Proofs.NonterminalName
import CaptureGrammar.Proofs.Productions

/-!
The grammar of a pattern generates the words that the pattern matches.

A derivation is read as matching by giving each nonterminal the words of its nodes. Counted
nonterminals have one node each, and the nodes that share a capture match the same words. Matching
is derived node by node, from the productions of each.
-/
namespace CaptureGrammar

open Grammar (ofPattern)

variable {root p : Pattern} {k : Counts} {n : Nonterminal} {q : Production Nonterminal}
  {id : GroupId} {x : Visit} {w : List Char}

/-- A capturing group and the references to its number match alike. -/
theorem matches_iff_of_capture (h : p.nonterminal k = .capture id) :
    root.Matches p w ↔ ∃ q, .group (some id) q ∈ root.nodes ∧ root.Matches q w := by
  cases p with
  | group i p =>
    cases i with
    | none => cases h
    | some i =>
      cases h
      constructor
      · intro hw
        cases hw with
        | capture hq hw => exact ⟨_, hq, hw⟩
      · rintro ⟨q, hq, hw⟩
        exact .capture hq hw
  | exprRef i =>
    cases h
    constructor
    · intro hw
      cases hw with
      | exprRef hq hw => exact ⟨_, hq, hw⟩
    · rintro ⟨q, hq, hw⟩
      exact .exprRef hq hw
  | strRef i =>
    cases h
    constructor
    · intro hw
      cases hw with
      | strRef hq hw => exact ⟨_, hq, hw⟩
    · rintro ⟨q, hq, hw⟩
      exact .strRef hq hw
  | char | concat | alt | star => cases h

/-! ### Derivations match -/

/-- The words of a nonterminal: what its nodes match, and for the start symbol what the root
matches. -/
def Means (root : Pattern) (n : Nonterminal) (w : List Char) : Prop :=
  (n = .start ∧ root.Matches root w) ∨
    ∃ x ∈ visits {} root.nodes, x.nonterminal = n ∧ root.Matches x.node w

theorem matches_of_means (hn : root.nodes.length < UInt32.size) (hx : x ∈ visits {} root.nodes)
    (h : Means root x.nonterminal w) : root.Matches x.node w := by
  rcases h with ⟨hs, -⟩ | ⟨y, hy, hyx, hw⟩
  · exact (Pattern.nonterminal_ne_start hs).elim
  · -- No other node has a counted nonterminal, and the nodes of a capture match alike.
    cases hc : x.nonterminal with
    | start => exact (Pattern.nonterminal_ne_start hc).elim
    | node c i =>
      have he : y = x := visit_eq_of_nonterminal_eq hn hy hx (hyx.trans hc) hc
      exact he ▸ hw
    | capture id =>
      rw [matches_iff_of_capture hc]
      exact (matches_iff_of_capture (hyx.trans hc)).mp hw

theorem matches_concat_of_spells {xs : List Visit}
    (hxs : ∀ x ∈ xs, ∀ v, Means root x.nonterminal v → root.Matches x.node v)
    (h : Spells (Means root) (xs.map fun x => .nonterminal x.nonterminal) w) :
    root.Matches (.concat (xs.map Visit.node)) w := by
  induction xs generalizing w with
  | nil =>
    cases h
    exact .concatNil
  | cons x xs ih =>
    obtain ⟨u, v, rfl, hu, hv⟩ := h
    exact .concatCons (hxs x List.mem_cons_self u hu)
      (ih (fun y hy => hxs y (List.mem_cons_of_mem _ hy)) hv)

/-- What a production of a node spells, the node matches. -/
theorem matches_of_production (hn : root.nodes.length < UInt32.size) (hx : x ∈ visits {} root.nodes)
    (hq : q ∈ x.productions) (h : Spells (Means root) q w) : root.Matches x.node w := by
  have hchild : ∀ y ∈ x.children, ∀ v, Means root y.nonterminal v → root.Matches y.node v :=
    fun y hy v => matches_of_means hn (closed_visits_nodes root {} x hx hy)
  obtain ⟨k, p⟩ := x
  cases p with
  | char c =>
    cases List.mem_singleton.mp hq
    obtain ⟨v, rfl, rfl⟩ := h
    exact .char c
  | concat ps =>
    cases List.mem_singleton.mp hq
    have hw := matches_concat_of_spells hchild h
    rwa [map_node_children] at hw
  | alt ps =>
    obtain ⟨y, hy, rfl⟩ := List.mem_map.mp hq
    have hmem : y.node ∈ ps := by
      have : y.node ∈ _ := List.mem_map.mpr ⟨y, hy, rfl⟩
      rwa [map_node_children] at this
    exact .alt hmem (hchild y hy w (spells_single.mp h))
  | group id p =>
    cases List.mem_singleton.mp hq
    have hw := hchild _ List.mem_cons_self w (spells_single.mp h)
    cases id with
    | none => exact .group hw
    | some id => exact .capture (mem_nodes_of_mem_visits hx) hw
  | star p min max =>
    rcases List.mem_cons.mp hq with rfl | hq
    · obtain ⟨u, v, rfl, hu, hv⟩ := h
      exact .starCons (hchild _ List.mem_cons_self u hu)
        (matches_of_means hn hx (spells_single.mp hv))
    · cases List.mem_singleton.mp hq
      cases h
      exact .starNil
  | exprRef | strRef => cases hq

theorem means_of_derives (hn : root.nodes.length < UInt32.size)
    (h : (ofPattern root).Derives [.nonterminal n] w) : Means root n w := by
  have hroot : ⟨{}, root⟩ ∈ visits {} root.nodes := root_mem_visits
  rw [← spells_single (L := Means root)]
  apply Grammar.Derives.spells _ h
  intro r hr q hq v hv
  rcases Grammar.mem_productions_ofPattern.mp ⟨r, hr, rfl, hq⟩ with ⟨hs, rfl⟩ | ⟨x, hx, hxr, hxq⟩
  · exact .inl ⟨hs, matches_of_means hn hroot (spells_single.mp hv)⟩
  · exact .inr ⟨x, hx, hxr, matches_of_production hn hx hxq hv⟩

theorem matches_of_generates (hn : root.nodes.length < UInt32.size)
    (h : (ofPattern root).Generates w) : root.Matches root w := by
  rcases means_of_derives hn h with ⟨-, hw⟩ | ⟨x, -, hs, -⟩
  · exact hw
  · exact (Pattern.nonterminal_ne_start hs).elim

/-! ### Matches are derived -/

/-- The grammar derives `w` wherever the walk over `root` comes to the pattern. Of a sequence this
is said part by part, as the rest of a sequence is not itself a node. -/
def Derivable (root : Pattern) (w : List Char) : Pattern → Prop
  | .concat ps => ∀ k, entries k ps ⊆ visits {} root.nodes →
      (ofPattern root).Derives ((names k ps).map .nonterminal) w
  | p => ∀ k, ⟨k, p⟩ ∈ visits {} root.nodes →
      (ofPattern root).Derives [.nonterminal (p.nonterminal k)] w

theorem derives_of_production (hx : x ∈ visits {} root.nodes) (hq : q ∈ x.productions)
    (h : (ofPattern root).Derives q w) :
    (ofPattern root).Derives [.nonterminal x.nonterminal] w := by
  obtain ⟨r, hr, hrn, hrq⟩ := Grammar.mem_productions_ofPattern.mpr (.inr ⟨x, hx, rfl, hq⟩)
  exact Grammar.derives_single_iff.mpr ⟨r, hr, hrn, q, hrq, h⟩

theorem Derivable.derives (h : Derivable root w p) (hp : ⟨k, p⟩ ∈ visits {} root.nodes) :
    (ofPattern root).Derives [.nonterminal (p.nonterminal k)] w := by
  cases p with
  | concat ps =>
    exact derives_of_production hp (by simp) (h _ (closed_visits_nodes root {} _ hp))
  | _ => exact h k hp

/-- All nodes of a capture derive what the body of any of its groups does. -/
theorem Derivable.capture {p : Pattern} (h : Derivable root w p)
    (hp : .group (some id) p ∈ root.nodes) :
    (ofPattern root).Derives [.nonterminal (.capture id)] w := by
  rw [← map_node_visits {} root.nodes] at hp
  obtain ⟨x, hx, hxp⟩ := List.mem_map.mp hp
  obtain ⟨k, _⟩ := x
  cases hxp
  exact derives_of_production hx (by simp)
    (h.derives (closed_visits_nodes root {} _ hx List.mem_cons_self))

theorem derivable_of_matches (h : root.Matches p w) : Derivable root w p := by
  have hclosed := closed_visits_nodes root {}
  induction h with
  | char c =>
    intro k hk
    exact derives_of_production hk (by simp) (.terminal .nil)
  | concatNil =>
    intro k _
    exact .nil
  | concatCons _ _ ihp ihps =>
    intro k hk
    exact .cons (ihp.derives (hk List.mem_cons_self))
      (ihps _ fun y hy => hk (List.mem_cons_of_mem _ hy))
  | @alt p ps w hp _ ih =>
    intro k hk
    rw [← map_node_entries (k.next .alt) ps] at hp
    obtain ⟨y, hy, rfl⟩ := List.mem_map.mp hp
    exact derives_of_production hk (List.mem_map.mpr ⟨y, hy, rfl⟩) (ih.derives (hclosed _ hk hy))
  | group _ ih =>
    intro k hk
    exact derives_of_production hk (by simp) (ih.derives (hclosed _ hk List.mem_cons_self))
  | capture hq _ ih | exprRef hq _ ih | strRef hq _ ih =>
    intro k _
    exact ih.capture hq
  | starNil =>
    intro k hk
    exact derives_of_production (q := [.epsilon]) hk (by simp) (.epsilon .nil)
  | starCons _ _ ihp ihs =>
    intro k hk
    exact derives_of_production hk List.mem_cons_self
      (.cons (ihp.derives (hclosed _ hk List.mem_cons_self)) (ihs k hk))

theorem generates_of_matches (h : root.Matches root w) : (ofPattern root).Generates w := by
  have hroot : ⟨{}, root⟩ ∈ visits {} root.nodes := root_mem_visits
  obtain ⟨r, hr, hrn, hrq⟩ := Grammar.mem_productions_ofPattern.mpr (.inl ⟨rfl, rfl⟩)
  exact Grammar.derives_single_iff.mpr
    ⟨r, hr, hrn, _, hrq, (derivable_of_matches h).derives hroot⟩

/-- The grammar of a pattern generates what the pattern matches, also when its nonterminals are told
apart by their written names alone. -/
theorem Grammar.generates_iff_matches (p : Pattern) (hn : p.nodes.length < UInt32.size)
    (w : List Char) :
    ((ofPattern p).Generates w ↔ p.Matches p w) ∧
      (((ofPattern p).rename Nonterminal.name).Generates w ↔ p.Matches p w) := by
  have hiff : (ofPattern p).Generates w ↔ p.Matches p w :=
    ⟨matches_of_generates hn, generates_of_matches⟩
  exact ⟨hiff, (Grammar.generates_rename fun _ _ => Nonterminal.name_injective).trans hiff⟩

/-- The word of a reference to a group that is still to come, and of the group. -/
theorem Grammar.generates_forward_reference :
    let p : Pattern := .concat [.exprRef 1, .group (some 1) (.alt [.char 'a', .strRef 1])]
    p.nodes.length < UInt32.size ∧
      ((ofPattern p).rename Nonterminal.name).Generates ['a', 'a'] := by
  intro p
  have hbody : p.Matches (.alt [.char 'a', .strRef 1]) ['a'] := .alt List.mem_cons_self (.char 'a')
  have hgroup : .group (some 1) (.alt [.char 'a', .strRef 1]) ∈ p.nodes := by decide
  have hword : p.Matches p (['a'] ++ (['a'] ++ [])) :=
    .concatCons (.exprRef hgroup hbody) (.concatCons (.capture hgroup hbody) .concatNil)
  exact ⟨by decide, (Grammar.generates_iff_matches p (by decide) _).2.mpr hword⟩

end CaptureGrammar
