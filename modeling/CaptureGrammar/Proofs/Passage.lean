import CaptureGrammar.Pattern.Reader.Basic
import CaptureGrammar.Pattern.Spelling
import CaptureGrammar.Proofs.Tree

/-! What reading takes from the text, and what it records on the way. -/
namespace CaptureGrammar.Pattern

variable {i : GroupId} {is js : List GroupId} {cs : List Char} {ds : List Completion}
  {s t u : Cursor} {p q : Pattern} {ps : List Pattern}

/-- The numbers of the capturing groups of a tree, in the order in which they are opened. -/
def captures (p : Pattern) : List GroupId := p.nodes.filterMap captureId?

def capturesOfAll (ps : List Pattern) : List GroupId := (nodesOfAll ps).filterMap captureId?

/-- Whether numbers are given out one after the other, from `i` on. -/
def NumberedFrom (i : GroupId) : List GroupId → Prop
  | [] => True
  | j :: js => j = i ∧ NumberedFrom (i + 1) js

theorem numberedFrom_append : NumberedFrom i (is ++ js) ↔
    NumberedFrom i is ∧ NumberedFrom (i + .ofNat is.length) js := by
  induction is generalizing i with
  | nil =>
    simp [NumberedFrom]
  | cons j is ih =>
    rw [List.cons_append, List.length_cons, UInt32.ofNat_add, UInt32.add_comm (.ofNat _),
      ← UInt32.add_assoc]
    simp only [NumberedFrom, ih, and_assoc]
    rfl

/-- A part of the text, with the groups that it opens and the nodes that it completes, in order. -/
structure Passage where
  text : List Char
  opened : List GroupId
  finished : List Completion

namespace Passage

variable {v w : Passage}

instance : Append Passage where
  append v w := ⟨v.text ++ w.text, v.opened ++ w.opened, v.finished ++ w.finished⟩

theorem append_def : v ++ w =
    ⟨v.text ++ w.text, v.opened ++ w.opened, v.finished ++ w.finished⟩ := rfl

/-- Whether a reader that takes the passage goes from the one cursor to the other. -/
structure Leads (w : Passage) (s t : Cursor) : Prop where
  rest : s.rest = w.text ++ t.rest
  numbered : NumberedFrom s.nextId w.opened
  nextId : t.nextId = s.nextId + .ofNat w.opened.length
  finished : t.finished = w.finished.reverse ++ s.finished
  opened : t.opened = w.opened.reverse ++ s.opened

theorem leads_append : (v ++ w).Leads s u ↔ ∃ t, v.Leads s t ∧ w.Leads t u := by
  constructor
  · rintro ⟨hr, hn, hi, hf, ho⟩
    simp only [append_def, List.append_assoc, List.reverse_append, List.length_append,
      numberedFrom_append, UInt32.ofNat_add] at hr hn hi hf ho
    refine ⟨⟨w.text ++ u.rest, s.nextId + .ofNat v.opened.length,
      v.finished.reverse ++ s.finished, v.opened.reverse ++ s.opened⟩, ?_, ?_⟩
    · exact ⟨hr, hn.1, rfl, rfl, rfl⟩
    · exact ⟨rfl, hn.2, by rw [hi, UInt32.add_assoc], hf, ho⟩
  · rintro ⟨t, hv, hw⟩
    refine ⟨?_, ?_, ?_, ?_, ?_⟩ <;>
      simp only [append_def, List.append_assoc, List.reverse_append, List.length_append,
        numberedFrom_append, UInt32.ofNat_add]
    · rw [hv.rest, hw.rest]
    · exact ⟨hv.numbered, hv.nextId ▸ hw.numbered⟩
    · rw [hw.nextId, hv.nextId, UInt32.add_assoc]
    · rw [hw.finished, hv.finished]
    · rw [hw.opened, hv.opened]

/-- A passage that opens no capturing group. -/
theorem leads_of_no_group : (mk cs [] ds).Leads s t ↔ s.rest = cs ++ t.rest ∧
    t = { s with rest := t.rest, finished := ds.reverse ++ s.finished } := by
  constructor
  · rintro ⟨hr, -, hi, hf, ho⟩
    obtain ⟨rest, i, done, opened⟩ := t
    simp only at hi hf ho
    have hi : i = s.nextId := hi.trans (UInt32.add_zero _)
    exact ⟨hr, by rw [hi, hf, ho]; rfl⟩
  · rintro ⟨hr, ht⟩
    rw [ht]
    exact ⟨hr, trivial, (UInt32.add_zero _).symm, rfl, rfl⟩

/-- The passage that opens a capturing group. -/
theorem leads_of_group : (mk cs [i] []).Leads s t ↔ s.rest = cs ++ t.rest ∧ i = s.nextId ∧
    t = { s with rest := t.rest, nextId := s.nextId + 1, opened := s.nextId :: s.opened } := by
  constructor
  · rintro ⟨hr, hn, hi, hf, ho⟩
    obtain ⟨rest, j, done, opened⟩ := t
    cases hn.1
    simp only [List.reverse_nil, List.nil_append] at hr hi hf ho
    exact ⟨hr, rfl, by rw [hi, hf, ho]; rfl⟩
  · rintro ⟨hr, rfl, ht⟩
    rw [ht]
    exact ⟨hr, ⟨rfl, trivial⟩, rfl, rfl, rfl⟩

/-- A passage that ends with the completion of a node. -/
theorem leads_mark {d : Completion} : (w ++ mk [] [] [d]).Leads s t ↔
    ∃ u, w.Leads s u ∧ t = { u with finished := d :: u.finished } := by
  rw [leads_append]
  constructor
  · rintro ⟨u, hu, hd⟩
    obtain ⟨hr, ht⟩ := leads_of_no_group.mp hd
    have hr : t.rest = u.rest := hr.symm
    refine ⟨u, hu, ?_⟩
    rw [ht, hr]
    rfl
  · rintro ⟨u, hu, rfl⟩
    exact ⟨u, hu, leads_of_no_group.mpr ⟨rfl, rfl⟩⟩

theorem leads_empty : (mk [] [] []).Leads s t ↔ s = t := by
  rw [leads_of_no_group]
  constructor
  · rintro ⟨hr, ht⟩
    rw [ht, ← hr.trans (List.nil_append _)]
    rfl
  · rintro rfl
    exact ⟨rfl, rfl⟩

end Passage

/-! ### The passages of trees -/

def passage (p : Pattern) : Passage := ⟨p.spelling, p.captures, p.postorder⟩

/-- The passage of patterns in a row. -/
def passageOfAll (ps : List Pattern) : Passage :=
  ⟨spellingOfAll ps, capturesOfAll ps, postorderOfAll ps⟩

/-- The passage of branches with bars between them. -/
def passageOfBranches (ps : List Pattern) : Passage :=
  ⟨spellingOfBranches ps, capturesOfAll ps, postorderOfAll ps⟩

theorem captures_eq (p : Pattern) :
    p.captures = p.captureId?.toList ++ capturesOfAll p.children := by
  rw [captures, nodes_eq, List.filterMap_cons]
  cases p.captureId? <;> rfl

theorem capturesOfAll_cons : capturesOfAll (p :: ps) = p.captures ++ capturesOfAll ps := by
  rw [capturesOfAll, nodesOfAll, List.filterMap_append]
  rfl

theorem capturesOfAll_singleton : capturesOfAll [p] = p.captures := by
  rw [capturesOfAll_cons]
  exact List.append_nil _

theorem captures_group {id : Option GroupId} : (group id p).captures = id.toList ++ p.captures := by
  rw [captures_eq, children, capturesOfAll_singleton]
  cases id <;> rfl

theorem passage_concat :
    (concat ps).passage = passageOfAll ps ++ ⟨[], [], [.concat]⟩ := by
  simp [passage, passageOfAll, Passage.append_def, spelling, postorder, captures_eq, captureId?,
    children]

theorem passage_alt : (alt ps).passage = passageOfBranches ps ++ ⟨[], [], [.alt]⟩ := by
  simp [passage, passageOfBranches, Passage.append_def, spelling, postorder, captures_eq,
    captureId?, children]

theorem passage_group {id : Option GroupId} : (group id p).passage =
    ⟨if id.isSome then ['('] else ['(', '?', ':'], id.toList, []⟩ ++
      (p.passage ++ ⟨[')'], [], [.group id]⟩) := by
  cases id <;> simp [passage, Passage.append_def, spelling, postorder, captures_group]

theorem passage_star {min : UInt32} {max : Option UInt32} : (star p min max).passage =
    ⟨['<'], [], []⟩ ++ (p.passage ++ ⟨['>'], [], [.star]⟩) := by
  simp [passage, Passage.append_def, spelling, postorder, captures_eq (star p min max), captureId?,
    children, capturesOfAll_singleton]

theorem passageOfAll_cons : passageOfAll (p :: ps) = p.passage ++ passageOfAll ps := by
  simp [passage, passageOfAll, Passage.append_def, spellingOfAll, postorderOfAll,
    capturesOfAll_cons]

theorem passageOfAll_singleton : passageOfAll [p] = p.passage := by
  simp [passage, passageOfAll, spellingOfAll, postorderOfAll, capturesOfAll_singleton]

theorem passageOfBranches_singleton : passageOfBranches [p] = p.passage := by
  simp [passage, passageOfBranches, spellingOfBranches, postorderOfAll, capturesOfAll_singleton]

theorem passageOfBranches_cons : passageOfBranches (p :: q :: ps) =
    p.passage ++ (⟨['|'], [], []⟩ ++ passageOfBranches (q :: ps)) := by
  simp [passage, passageOfBranches, Passage.append_def, spellingOfBranches, postorderOfAll,
    capturesOfAll_cons]

end CaptureGrammar.Pattern
