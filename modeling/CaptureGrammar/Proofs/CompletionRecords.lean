import CaptureGrammar.Proofs.RoundTrip

/-!
The nodes of a pattern in the order in which reading completes them.

Reading leaves one record for each node of the tree, in that order.
-/
namespace CaptureGrammar.Pattern

variable {s : String} {r : Parsed}

mutual

/-- Every part of a pattern, each after its own parts. -/
def completed : Pattern → List Pattern
  | .concat ps => completedOfAll ps ++ [.concat ps]
  | .alt ps => completedOfAll ps ++ [.alt ps]
  | .group id p => completed p ++ [.group id p]
  | .star p min max => completed p ++ [.star p min max]
  | .char c => [.char c]
  | .exprRef id => [.exprRef id]
  | .strRef id => [.strRef id]

def completedOfAll : List Pattern → List Pattern
  | [] => []
  | p :: ps => completed p ++ completedOfAll ps

end

theorem completed_eq (p : Pattern) : p.completed = completedOfAll p.children ++ [p] := by
  cases p <;> simp [completed, completedOfAll, children]

theorem map_completion_completed (p : Pattern) : p.completed.map completion = p.postorder := by
  refine forestInduction (fun ps => (completedOfAll ps).map completion = postorderOfAll ps)
    ?node ?nil ?cons p
  case node =>
    intro p ih
    rw [completed_eq, List.map_append, ih, postorder_eq]
    rfl
  case nil => rfl
  case cons =>
    intro p ps ihp ihps
    rw [completedOfAll, List.map_append, ihp, ihps, postorderOfAll]

/-- Completion and opening come to the same nodes. -/
theorem completed_perm_nodes (p : Pattern) : p.completed.Perm p.nodes := by
  refine forestInduction (fun ps => (completedOfAll ps).Perm (nodesOfAll ps)) ?node ?nil ?cons p
  case node =>
    intro p ih
    rw [completed_eq, nodes_eq]
    exact List.perm_append_comm.trans (ih.cons p)
  case nil => exact .nil
  case cons =>
    intro p ps ihp ihps
    exact ihp.append ihps

/-- Reading records each node of the tree once, after the nodes below it and before those right of
it, and so the root last. Of sequences and alternatives only those of two parts or more are nodes, so
an atom or a branch that stands for itself has one record. -/
theorem completions_of_parse (h : parse s = .ok r) :
    r.completions = r.root.completed.map completion ∧ r.root.completed.Perm r.root.nodes ∧
      (∀ c, r.completions.count c = r.root.nodes.countP (·.completion = c)) ∧
      r.completions.length = r.root.nodes.length ∧
      (∀ ps, .concat ps ∈ r.root.nodes ∨ .alt ps ∈ r.root.nodes → 2 ≤ ps.length) ∧
      r.completions.getLast? = some r.root.completion := by
  obtain ⟨hfits, -, -, hdone, -⟩ := parse_eq_ok.mp h
  have hmap : r.completions = r.root.completed.map completion := by
    rw [hdone, map_completion_completed]
  have hperm : r.root.completed.Perm r.root.nodes := completed_perm_nodes r.root
  refine ⟨hmap, hperm, ?_, ?_, ?_, ?_⟩
  · intro c
    rw [hmap, List.count, List.countP_map, hperm.countP_eq]
    rfl
  · rw [hmap, List.length_map, hperm.length_eq]
  · rintro ps (hps | hps)
    · exact (hfits.1.of_mem hps).1
    · exact (hfits.1.of_mem hps).1
  · rw [hdone, postorder_eq, List.getLast?_concat]

/-- Inside the brackets, a single character is one branch and a sequence the other. -/
theorem completions_of_parse_branches :
    ∃ r, parse "<(?:a|bc)>" = .ok r ∧ r.completions = [.char 'a', .char 'b', .char 'c', .concat,
      .alt, .group none, .star] ∧ r.completions.length = r.root.nodes.length := by
  let p : Pattern := .many (.group none (.alt [.char 'a', .concat [.char 'b', .char 'c']]))
  have hparse : parse "<(?:a|bc)>" = .ok ⟨p, p.postorder, 1⟩ :=
    parse_of_toOption (by with_unfolding_all decide)
  obtain ⟨hmap, -, -, hlen, -⟩ := completions_of_parse hparse
  exact ⟨_, hparse, hmap, hlen⟩

end CaptureGrammar.Pattern
