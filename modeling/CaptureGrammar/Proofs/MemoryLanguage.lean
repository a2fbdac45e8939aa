import CaptureGrammar.Pattern.Memory
import CaptureGrammar.Proofs.GrammarLanguage

/-!
The grammar of a pattern generates all that the pattern matches when references to text repeat what
was captured.

What a group is remembered to have captured, the expression of the group matches. This holds all the
way through a match, so a reference that repeats the word stays within what a reference may stand
for.
-/
namespace CaptureGrammar

open Grammar (ofPattern)

namespace Pattern

variable {root p q : Pattern} {ps : List Pattern} {m m' : Memory} {id : GroupId} {w : List Char}

/-- Whether every capturing group in `p` is one of `root`. The rest of a sequence is not a node, but
has its groups in common with the whole. -/
def GroupsWithin (root p : Pattern) : Prop :=
  ∀ id q, .group (some id) q ∈ p.nodes → .group (some id) q ∈ root.nodes

theorem GroupsWithin.child (h : GroupsWithin root p) (hq : q ∈ p.children) : GroupsWithin root q :=
  fun id b hb => h id b (mem_nodes_iff.mpr (.inr ⟨q, hq, hb⟩))

theorem GroupsWithin.rest (h : GroupsWithin root (.concat (p :: ps))) :
    GroupsWithin root (.concat ps) := by
  intro id b hb
  rcases mem_nodes_iff.mp hb with hb | ⟨c, hc, hb⟩
  · cases hb
  · exact h.child (List.mem_cons_of_mem _ hc) id b hb

/-- Whether all that is remembered of a group is matched by the body of a group of that number. -/
def Memory.Within (root : Pattern) (m : Memory) : Prop :=
  ∀ id w, m id = some w → ∃ q, .group (some id) q ∈ root.nodes ∧ root.Matches q w

theorem Memory.within_empty : Memory.Within root .empty := by
  intro id w h
  cases h

theorem Memory.Within.record (hm : m.Within root) (hq : .group (some id) q ∈ root.nodes)
    (hw : root.Matches q w) : (m.record id w).Within root := by
  intro i v hv
  simp only [Memory.record] at hv
  split at hv
  · next hi =>
    cases hv
    exact ⟨q, hi ▸ hq, hw⟩
  · exact hm i v hv

/-- A match with memory is a match without, and what it remembers is matched by its group. -/
theorem matches_of_matchesFrom (h : root.MatchesFrom p m w m') (hp : GroupsWithin root p)
    (hm : m.Within root) : root.Matches p w ∧ m'.Within root := by
  induction h with
  | char c m => exact ⟨.char c, hm⟩
  | concatNil m => exact ⟨.concatNil, hm⟩
  | @concatCons p ps m m₁ m₂ v w _ _ ihp ihps =>
    obtain ⟨hv, hm₁⟩ := ihp (hp.child List.mem_cons_self) hm
    obtain ⟨hw, hm₂⟩ := ihps hp.rest hm₁
    exact ⟨.concatCons hv hw, hm₂⟩
  | alt hmem _ ih =>
    obtain ⟨hw, hm'⟩ := ih (hp.child hmem) hm
    exact ⟨.alt hmem hw, hm'⟩
  | group _ ih =>
    obtain ⟨hw, hm'⟩ := ih (hp.child List.mem_cons_self) hm
    exact ⟨.group hw, hm'⟩
  | @capture id p m m' w _ ih =>
    obtain ⟨hw, hm'⟩ := ih (hp.child List.mem_cons_self) hm
    have hgroup : .group (some id) p ∈ root.nodes := hp id p (self_mem_nodes _)
    exact ⟨.capture hgroup hw, hm'.record hgroup hw⟩
  | starNil m => exact ⟨.starNil, hm⟩
  | starCons _ _ ihp ihs =>
    obtain ⟨hv, hm₁⟩ := ihp (hp.child List.mem_cons_self) hm
    obtain ⟨hw, hm₂⟩ := ihs hp hm₁
    exact ⟨.starCons hv hw, hm₂⟩
  | @exprRef id q m m' w hgroup _ ih =>
    have hq : GroupsWithin root (.group (some id) q) := fun _ _ hb => nodes_subset_of_mem hgroup hb
    obtain ⟨hw, hm'⟩ := ih (hq.child List.mem_cons_self) hm
    exact ⟨.exprRef hgroup hw, hm'⟩
  | strRef hid =>
    obtain ⟨q, hgroup, hw⟩ := hm _ _ hid
    exact ⟨.strRef hgroup hw, hm⟩

end Pattern

open Pattern (Memory)

/-- The grammar over-approximates matching with memory: a word that the pattern matches, with
nothing captured before, is generated. -/
theorem Grammar.generates_of_matchesFrom {p : Pattern} {w : List Char} {m : Memory}
    (h : p.MatchesFrom p .empty w m) :
    (ofPattern p).Generates w ∧ ((ofPattern p).rename Nonterminal.name).Generates w := by
  have hmatch : p.Matches p w :=
    (Pattern.matches_of_matchesFrom h (fun _ _ hq => hq) Memory.within_empty).1
  have hgen : (ofPattern p).Generates w := generates_of_matches hmatch
  exact ⟨hgen, hgen.rename⟩

/-- A group in a loop captures anew in each round, and the reference repeats the last capture. -/
theorem Grammar.generates_of_matchesFrom_loop :
    let p : Pattern := .concat [.many (.group (some 1) (.alt [.char 'a', .char 'b'])),
      .strRef 1, .exprRef 1]
    p.MatchesFrom p .empty ['a', 'b', 'b', 'a'] ((Memory.empty.record 1 ['a']).record 1 ['b']) ∧
      (ofPattern p).Generates ['a', 'b', 'b', 'a'] ∧
      ((ofPattern p).rename Nonterminal.name).Generates ['a', 'b', 'b', 'a'] := by
  intro p
  have ha : p.MatchesFrom (.alt [.char 'a', .char 'b']) .empty ['a'] .empty :=
    .alt List.mem_cons_self (.char 'a' _)
  have hb : p.MatchesFrom (.alt [.char 'a', .char 'b']) (Memory.empty.record 1 ['a']) ['b']
      (Memory.empty.record 1 ['a']) :=
    .alt (List.mem_cons_of_mem _ List.mem_cons_self) (.char 'b' _)
  have hloop : p.MatchesFrom (.many (.group (some 1) (.alt [.char 'a', .char 'b']))) .empty
      (['a'] ++ (['b'] ++ [])) ((Memory.empty.record 1 ['a']).record 1 ['b']) :=
    .starCons (.capture ha) (.starCons (.capture hb) (.starNil _))
  have hexpr : p.MatchesFrom (.exprRef 1) ((Memory.empty.record 1 ['a']).record 1 ['b']) ['a']
      ((Memory.empty.record 1 ['a']).record 1 ['b']) :=
    .exprRef (q := .alt [.char 'a', .char 'b']) (by decide) (.alt List.mem_cons_self (.char 'a' _))
  have hword : p.MatchesFrom p .empty (['a', 'b'] ++ (['b'] ++ (['a'] ++ [])))
      ((Memory.empty.record 1 ['a']).record 1 ['b']) :=
    .concatCons hloop (.concatCons (.strRef rfl) (.concatCons hexpr (.concatNil _)))
  exact ⟨hword, Grammar.generates_of_matchesFrom hword⟩

end CaptureGrammar
