import CaptureGrammar.Proofs.Closings
import CaptureGrammar.Proofs.CompletionOrder
import CaptureGrammar.Proofs.RoundTrip

/-! Which patterns fail the check on the order of their references, told from the tree and from the
text. -/
namespace CaptureGrammar

open Pattern (Closing Parsed children closings inParentheses parse)

variable {s : String} {r : Parsed} {p : Pattern} {id : GroupId} {path : List Nat}
  {cs : List Completion} {closed : List Closing}

/-- The closing parentheses of a text that is read end what is recorded while it is read. -/
theorem map_closings_of_parse (h : parse s = .ok r) :
    (closings [] 0 s.toList).map Closing.completion = r.completions.filter inParentheses := by
  obtain ⟨hfits, htext, hnum, hdone, -⟩ := Pattern.parse_eq_ok.mp h
  have htraced := Pattern.traced_passage hfits.1 [] 0 [] hnum
  simpa [Pattern.passage, htext, hdone, closings] using htraced

theorem pair_sublist_filter : [.strRef id, .group (some id)].Sublist (cs.filter inParentheses) ↔
    [.strRef id, .group (some id)].Sublist cs := by
  constructor
  · intro h
    exact h.trans List.filter_sublist
  · intro h
    exact h.filter inParentheses

theorem pair_sublist_map_completion :
    [.strRef id, .group (some id)].Sublist (closed.map Closing.completion) ↔
      ∃ k, .ofNat k = id ∧ [.strRef id, .group (some k)].Sublist closed := by
  rw [List.sublist_map_iff]
  constructor
  · rintro ⟨l, hsub, heq⟩
    obtain ⟨x, l, rfl, hx, hl⟩ := List.map_eq_cons_iff.mp heq.symm
    obtain ⟨y, l, rfl, hy, hnil⟩ := List.map_eq_cons_iff.mp hl
    cases List.map_eq_nil_iff.mp hnil
    cases Closing.completion_eq_strRef.mp hx
    obtain ⟨k, rfl, hk⟩ := Closing.completion_eq_group.mp hy
    exact ⟨k, hk, hsub⟩
  · rintro ⟨k, rfl, h⟩
    exact ⟨_, h, rfl⟩

theorem completionAt_eq_strRef : completionAt p path = some (.strRef id) ↔
    nodeAt children p path = some (.strRef id) := by
  rw [completionAt, Option.map_eq_some_iff]
  constructor
  · rintro ⟨q, hq, hid⟩
    cases q <;> cases hid
    exact hq
  · intro h
    exact ⟨_, h, rfl⟩

theorem completionAt_eq_group : completionAt p path = some (.group (some id)) ↔
    ∃ body, nodeAt children p path = some (.group (some id) body) := by
  rw [completionAt, Option.map_eq_some_iff]
  constructor
  · rintro ⟨q, hq, hid⟩
    cases q <;> cases hid
    exact ⟨_, hq⟩
  · rintro ⟨body, h⟩
    exact ⟨_, h, rfl⟩

namespace Validation

theorem referenceOrder_eq_false_iff : (ofParsed r).referenceOrder = false ↔
    ∃ id, [.strRef id, .group (some id)].Sublist r.completions := by
  rw [ofParsed, of, inReferenceOrder_eq_false_iff]
  simp

/-- The check fails on a reference to the text of a group that is completed later. -/
theorem referenceOrder_eq_false_iff_tree (h : parse s = .ok r) :
    (ofParsed r).referenceOrder = false ↔ ∃ id body path path',
      nodeAt children r.root path = some (.strRef id) ∧
      nodeAt children r.root path' = some (.group (some id) body) ∧
      CompletedBefore path path' := by
  obtain ⟨-, -, -, hdone, -⟩ := Pattern.parse_eq_ok.mp h
  simp only [referenceOrder_eq_false_iff, hdone, pair_sublist_postorder_iff, completionAt_eq_strRef,
    completionAt_eq_group]
  constructor
  · rintro ⟨id, path, path', href, ⟨body, hgroup⟩, hbefore⟩
    exact ⟨id, body, path, path', href, hgroup, hbefore⟩
  · rintro ⟨id, body, path, path', href, hgroup, hbefore⟩
    exact ⟨id, path, path', href, ⟨body, hgroup⟩, hbefore⟩

/-- A reference is completed before a group if it is inside the group or left of it. -/
theorem completedBefore_iff_of_strRef {body : Pattern} {path' : List Nat}
    (href : nodeAt children p path = some (.strRef id))
    (hgroup : nodeAt children p path' = some (.group (some id) body)) :
    CompletedBefore path path' ↔ path' <+: path ∨ LeftOf path path' := by
  have hne : path ≠ path' := by
    rintro rfl
    rw [href] at hgroup
    cases hgroup
  simp only [CompletedBefore, hne, ne_eq, not_false_eq_true, and_true]

/-- The check fails on a reference that the text closes before the group that it refers to. -/
theorem referenceOrder_eq_false_iff_text (h : parse s = .ok r) :
    (ofParsed r).referenceOrder = false ↔
      ∃ k, [.strRef (.ofNat k), .group (some k)].Sublist (closings [] 0 s.toList) := by
  simp only [referenceOrder_eq_false_iff, ← @pair_sublist_filter _ r.completions,
    ← map_closings_of_parse h, pair_sublist_map_completion]
  constructor
  · rintro ⟨_, k, rfl, hk⟩
    exact ⟨k, hk⟩
  · rintro ⟨k, hk⟩
    exact ⟨_, k, rfl, hk⟩

/-- The verdict on the order of the references of a text, told from the addresses of nodes in the
tree that is read from it and from the order of its closing parentheses. References to expressions,
to groups that do not exist, and to the text of groups on their left are in order. -/
theorem referenceOrder_of_parse (h : parse s = .ok r) :
    ((ofParsed r).referenceOrder = false ↔ ∃ id body path path',
      nodeAt children r.root path = some (.strRef id) ∧
      nodeAt children r.root path' = some (.group (some id) body) ∧
      (path' <+: path ∨ LeftOf path path')) ∧
    ((ofParsed r).referenceOrder = false ↔
      ∃ k, [.strRef (.ofNat k), .group (some k)].Sublist (closings [] 0 s.toList)) ∧
    ((∀ id body path path', nodeAt children r.root path = some (.strRef id) →
      nodeAt children r.root path' = some (.group (some id) body) → LeftOf path' path) →
        (ofParsed r).referenceOrder = true) := by
  refine ⟨?_, referenceOrder_eq_false_iff_text h, ?_⟩
  · rw [referenceOrder_eq_false_iff_tree h]
    constructor
    · rintro ⟨id, body, path, path', href, hgroup, hbefore⟩
      exact ⟨id, body, path, path', href, hgroup,
        (completedBefore_iff_of_strRef href hgroup).mp hbefore⟩
    · rintro ⟨id, body, path, path', href, hgroup, hplace⟩
      exact ⟨id, body, path, path', href, hgroup,
        (completedBefore_iff_of_strRef href hgroup).mpr hplace⟩
  · intro hright
    rw [← Bool.not_eq_false, referenceOrder_eq_false_iff_tree h]
    rintro ⟨id, body, path, path', href, hgroup, hbefore⟩
    exact not_completedBefore_of_leftOf (hright id body path path' href hgroup) hbefore

/-- A reference inside its own group, and one left of its group. -/
theorem referenceOrder_of_parse_inside_and_left :
    ∃ r, parse "((\\1)a)(\\2)(b)" = .ok r ∧ (ofParsed r).referenceOrder = false ∧
      (∃ k, [.strRef (.ofNat k), .group (some k)].Sublist
        (closings [] 0 "((\\1)a)(\\2)(b)".toList)) ∧
      ¬ ∀ id body path path', nodeAt children r.root path = some (.strRef id) →
        nodeAt children r.root path' = some (.group (some id) body) → LeftOf path' path := by
  let p : Pattern := .concat [.group (some 1) (.concat [.strRef 1, .char 'a']), .strRef 2,
    .group (some 2) (.char 'b')]
  have hparse : parse "((\\1)a)(\\2)(b)" = .ok ⟨p, p.postorder, 3⟩ :=
    Pattern.parse_of_toOption (by with_unfolding_all decide)
  obtain ⟨htree, htext, hright⟩ := referenceOrder_of_parse hparse
  have hinside : [0] <+: [0, 0, 0] := ⟨[0, 0], rfl⟩
  have hfalse := htree.mpr
    ⟨1, .concat [.strRef 1, .char 'a'], [0, 0, 0], [0], rfl, rfl, .inl hinside⟩
  refine ⟨_, hparse, hfalse, htext.mp hfalse, fun hall => ?_⟩
  rw [hright hall] at hfalse
  cases hfalse

end Validation

end CaptureGrammar
