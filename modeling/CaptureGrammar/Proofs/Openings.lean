import CaptureGrammar.Proofs.GroupNumbers
import CaptureGrammar.Validation

/-!
Where the capturing groups of a text are opened, found by going over the text alone.

Of a text that is read, the places are those of the tree's capturing groups, in the order of their
numbers.
-/
namespace CaptureGrammar

open Pattern (Parsed parse)

namespace Pattern

variable {i : Nat} {c : Char} {cs rest : List Char} {p : Pattern} {ps : List Pattern}

/-- The places of the parentheses that open capturing groups, which are those with neither `?` nor
`\` behind them. The text starts at place `i`. -/
def openings (i : Nat) : List Char → List Nat
  | [] => []
  | c :: cs =>
    if c = '(' ∧ cs.head? ≠ some '?' ∧ cs.head? ≠ some '\\' then i :: openings (i + 1) cs
    else openings (i + 1) cs

theorem openings_capture (h : ∀ c ∈ cs.head?, c ≠ '?' ∧ c ≠ '\\') :
    openings i ('(' :: cs) = i :: openings (i + 1) cs :=
  if_pos ⟨rfl, fun hq => (h _ hq).1 rfl, fun hb => (h _ hb).2 rfl⟩

theorem openings_sigil (h : c = '?' ∨ c = '\\') :
    openings i ('(' :: c :: cs) = openings (i + 1) (c :: cs) := by
  refine if_neg ?_
  rintro ⟨-, hq, hb⟩
  rcases h with rfl | rfl
  · exact hq rfl
  · exact hb rfl

theorem openings_other (h : c ≠ '(') : openings i (c :: cs) = openings (i + 1) cs :=
  if_neg fun hc => h hc.1

theorem length_openings_le : (openings i cs).length ≤ cs.length := by
  induction cs generalizing i with
  | nil => exact Nat.le_refl _
  | cons c cs ih =>
    rw [openings]
    split
    · exact Nat.succ_le_succ ih
    · exact Nat.le_succ_of_le ih

/-! ### The places of nodes -/

/-- A node, and the place in a text where its own text starts. -/
structure Placed where
  start : Nat
  node : Pattern

mutual

/-- The nodes of a pattern whose text starts at place `i`, in the order of `nodes`. -/
def placed (i : Nat) : Pattern → List Placed
  | .concat ps => ⟨i, .concat ps⟩ :: placedOfAll 0 i ps
  | .alt ps => ⟨i, .alt ps⟩ :: placedOfAll 1 i ps
  | .group (some id) p => ⟨i, .group (some id) p⟩ :: placed (i + 1) p
  | .group none p => ⟨i, .group none p⟩ :: placed (i + 3) p
  | .star p min max => ⟨i, .star p min max⟩ :: placed (i + 1) p
  | .char c => [⟨i, .char c⟩]
  | .exprRef id => [⟨i, .exprRef id⟩]
  | .strRef id => [⟨i, .strRef id⟩]

/-- The nodes of patterns whose texts stand in a row, with `gap` characters between them. -/
def placedOfAll (gap i : Nat) : List Pattern → List Placed
  | [] => []
  | p :: ps => placed i p ++ placedOfAll gap (i + p.spelling.length + gap) ps

end

theorem exists_placed_eq (i : Nat) (p : Pattern) :
    ∃ gap j, placed i p = ⟨i, p⟩ :: placedOfAll gap j p.children := by
  cases p with
  | concat ps => exact ⟨0, i, rfl⟩
  | alt ps => exact ⟨1, i, rfl⟩
  | group id p =>
    cases id with
    | some id => exact ⟨0, i + 1, by simp [placed, placedOfAll, children]⟩
    | none => exact ⟨0, i + 3, by simp [placed, placedOfAll, children]⟩
  | star p min max => exact ⟨0, i + 1, by simp [placed, placedOfAll, children]⟩
  | char | exprRef | strRef => exact ⟨0, i, rfl⟩

theorem map_node_placed (p : Pattern) : ∀ i, (placed i p).map Placed.node = p.nodes := by
  refine forestInduction
    (fun ps => ∀ gap i, (placedOfAll gap i ps).map Placed.node = nodesOfAll ps)
    ?node ?nil ?cons p
  case node =>
    intro p ih i
    obtain ⟨gap, j, hplaced⟩ := exists_placed_eq i p
    rw [hplaced, List.map_cons, ih, nodes_eq]
  case nil =>
    intro gap i
    rfl
  case cons =>
    intro p ps ihp ihps gap i
    rw [placedOfAll, List.map_append, ihp, ihps, nodesOfAll]

/-- Whether nodes stand where they are placed in the text `cs`, which starts at place `i`. -/
def StandIn (i : Nat) (cs : List Char) (xs : List Placed) : Prop :=
  ∀ x ∈ xs, ∃ before after, cs = before ++ x.node.spelling ++ after ∧ x.start = i + before.length

variable {xs ys : List Placed}

theorem StandIn.append (hx : StandIn i cs xs) (hy : StandIn i cs ys) : StandIn i cs (xs ++ ys) := by
  intro x h
  rcases List.mem_append.mp h with h | h
  · exact hx x h
  · exact hy x h

/-- Nodes in a part of the text stand in the text. -/
theorem StandIn.extend (before after : List Char) (h : StandIn (i + before.length) cs xs) :
    StandIn i (before ++ cs ++ after) xs := by
  intro x hx
  obtain ⟨u, v, rfl, hstart⟩ := h x hx
  refine ⟨before ++ u, v ++ after, by simp only [List.append_assoc], ?_⟩
  rw [hstart, List.length_append, Nat.add_assoc]

theorem StandIn.root (h : StandIn i p.spelling xs) : StandIn i p.spelling (⟨i, p⟩ :: xs) := by
  intro x hx
  rcases List.mem_cons.mp hx with rfl | hx
  · exact ⟨[], [], by simp, rfl⟩
  · exact h x hx

theorem standIn_nil : StandIn i cs [] := by
  intro x hx
  cases hx

theorem standIn_placedOfAll (h : ∀ p ∈ ps, ∀ i, StandIn i p.spelling (placed i p)) :
    StandIn i (spellingOfAll ps) (placedOfAll 0 i ps) := by
  induction ps generalizing i with
  | nil => exact standIn_nil
  | cons p ps ih =>
    obtain ⟨hp, hps⟩ := List.forall_mem_cons.mp h
    have hfirst := StandIn.extend (i := i) [] (spellingOfAll ps) (hp i)
    have hrest := StandIn.extend (i := i) p.spelling [] (ih hps)
    rw [List.append_nil] at hrest
    rw [placedOfAll, spellingOfAll]
    exact hfirst.append hrest

theorem standIn_placedOfBranches (h : ∀ p ∈ ps, ∀ i, StandIn i p.spelling (placed i p)) :
    StandIn i (spellingOfBranches ps) (placedOfAll 1 i ps) := by
  induction ps generalizing i with
  | nil => exact standIn_nil
  | cons p ps ih =>
    obtain ⟨hp, hps⟩ := List.forall_mem_cons.mp h
    cases ps with
    | nil =>
      rw [placedOfAll, spellingOfBranches]
      exact (hp i).append standIn_nil
    | cons q ps =>
      have hfirst := StandIn.extend (i := i) [] ('|' :: spellingOfBranches (q :: ps)) (hp i)
      have hrest := StandIn.extend (i := i) (p.spelling ++ ['|']) [] (ih hps)
      rw [List.append_nil, List.append_assoc, List.length_append, ← Nat.add_assoc] at hrest
      rw [placedOfAll, spellingOfBranches]
      exact hfirst.append hrest

theorem standIn_placed (p : Pattern) : ∀ i, StandIn i p.spelling (placed i p) := by
  induction p using childrenInduction with
  | node p ih =>
    intro i
    cases p with
    | concat ps => exact StandIn.root (standIn_placedOfAll ih)
    | alt ps => exact StandIn.root (standIn_placedOfBranches ih)
    | group id p =>
      have hp := ih p List.mem_cons_self
      cases id with
      | some id => exact StandIn.root (StandIn.extend ['('] [')'] (hp (i + 1)))
      | none => exact StandIn.root (StandIn.extend ['(', '?', ':'] [')'] (hp (i + 3)))
    | star p min max =>
      have hp := ih p List.mem_cons_self
      exact StandIn.root (StandIn.extend ['<'] ['>'] (hp (i + 1)))
    | char | exprRef | strRef => exact StandIn.root standIn_nil

/-! ### The places of capturing groups -/

/-- The place of a capturing group, and its number. -/
def Placed.opening? (x : Placed) : Option (Nat × Nat) :=
  x.node.captureId?.map fun id => (x.start, id.toNat)

/-- The places of the capturing groups among some nodes, in order. -/
def starts (xs : List Placed) : List Nat := (xs.filterMap Placed.opening?).map Prod.fst

theorem starts_append : starts (xs ++ ys) = starts xs ++ starts ys := by
  rw [starts, List.filterMap_append, List.map_append]
  rfl

/-- Whether the text of a tree shows where the tree has its groups, whatever follows. -/
def Shows (p : Pattern) : Prop :=
  ∀ i rest, openings i (p.spelling ++ rest) =
    starts (placed i p) ++ openings (i + p.spelling.length) rest

theorem openings_spellingOfAll (h : ∀ p ∈ ps, Shows p) :
    openings i (spellingOfAll ps ++ rest) =
      starts (placedOfAll 0 i ps) ++ openings (i + (spellingOfAll ps).length) rest := by
  induction ps generalizing i with
  | nil => rfl
  | cons p ps ih =>
    obtain ⟨hp, hps⟩ := List.forall_mem_cons.mp h
    rw [spellingOfAll, List.append_assoc, hp, ih hps, placedOfAll, starts_append,
      List.append_assoc, List.length_append, Nat.add_assoc]
    rfl

theorem openings_spellingOfBranches (h : ∀ p ∈ ps, Shows p) :
    openings i (spellingOfBranches ps ++ rest) =
      starts (placedOfAll 1 i ps) ++ openings (i + (spellingOfBranches ps).length) rest := by
  induction ps generalizing i with
  | nil => rfl
  | cons p ps ih =>
    obtain ⟨hp, hps⟩ := List.forall_mem_cons.mp h
    rw [placedOfAll, starts_append, List.append_assoc]
    cases ps with
    | nil => exact hp i rest
    | cons q ps =>
      have hlen : i + (spellingOfBranches (p :: q :: ps)).length =
          i + p.spelling.length + 1 + (spellingOfBranches (q :: ps)).length := by
        rw [spellingOfBranches, List.length_append, List.length_cons]
        omega
      rw [hlen, spellingOfBranches, List.append_assoc, List.cons_append, hp,
        openings_other (by decide), ih hps]

theorem shows_group {id : Option GroupId} (h : (group id p).IsCanonical) (hp : Shows p) :
    Shows (group id p) := by
  intro i rest
  cases id with
  | none =>
    have htext : (group none p).spelling ++ rest =
        '(' :: '?' :: ':' :: (p.spelling ++ ')' :: rest) := by
      simp [spelling]
    have hlen : i + (group none p).spelling.length = i + 3 + p.spelling.length + 1 := by
      simp only [spelling, List.length_cons, List.length_append, List.length_nil]
      omega
    rw [htext, hlen, openings_sigil (.inl rfl), openings_other (by decide),
      openings_other (by decide), hp, openings_other (by decide), placed]
    rfl
  | some id =>
    have htext : (group (some id) p).spelling ++ rest = '(' :: (p.spelling ++ ')' :: rest) := by
      simp [spelling]
    have hlen : i + (group (some id) p).spelling.length = i + 1 + p.spelling.length + 1 := by
      simp only [spelling, List.length_cons, List.length_append, List.length_nil]
      omega
    have hhead : ∀ c ∈ (p.spelling ++ ')' :: rest).head?, c ≠ '?' ∧ c ≠ '\\' := by
      rw [head?_spelling_append h.1]
      exact h.2 rfl
    rw [htext, hlen, openings_capture hhead, hp, openings_other (by decide), placed]
    rfl

theorem shows_of_isCanonical (h : p.IsCanonical) : Shows p := by
  induction p using childrenInduction with
  | node p ih =>
    cases p with
    | char c =>
      intro i rest
      have hc : c ≠ '(' := fun heq => h (heq ▸ List.mem_cons_self)
      exact openings_other hc
    | concat ps =>
      have hall := allCanonical_iff.mp h.2.1
      intro i rest
      exact openings_spellingOfAll fun p hp => ih p hp (hall p hp)
    | alt ps =>
      have hall := allCanonical_iff.mp h.2.1
      intro i rest
      exact openings_spellingOfBranches fun p hp => ih p hp (hall p hp)
    | group id p => exact shows_group h (ih p List.mem_cons_self h.1)
    | star p min max =>
      have hp : Shows p := ih p List.mem_cons_self h.1
      intro i rest
      have htext : (star p min max).spelling ++ rest = '<' :: (p.spelling ++ '>' :: rest) := by
        simp [spelling]
      have hlen : i + (star p min max).spelling.length = i + 1 + p.spelling.length + 1 := by
        simp only [spelling, List.length_cons, List.length_append, List.length_nil]
        omega
      rw [htext, hlen, openings_other (by decide), hp, openings_other (by decide), placed]
      rfl
    | exprRef id | strRef id =>
      obtain ⟨c, hc, rfl⟩ := exists_digit h
      intro i rest
      have hopen : c ≠ '(' := fun heq => by
        rw [heq] at hc
        cases hc
      simp [spelling, toList_toString_digitValue hc, openings_sigil, openings_other, hopen, placed,
        starts, Placed.opening?, captureId?]

theorem map_snd_opening (p : Pattern) (i : Nat) :
    ((placed i p).filterMap Placed.opening?).map Prod.snd = p.captures.map UInt32.toNat := by
  rw [captures, ← map_node_placed p i, List.filterMap_map, List.map_filterMap, List.map_filterMap]
  congr 1
  funext x
  rw [Placed.opening?, Option.map_map]
  rfl

end Pattern

open Pattern (Placed openings placed)

variable {s : String} {r : Parsed}

/-- The text that is read has an opening parenthesis for each capturing group of the tree. -/
theorem openings_of_parse (h : parse s = .ok r) :
    openings 0 s.toList = ((placed 0 r.root).filterMap Placed.opening?).map Prod.fst := by
  obtain ⟨hfits, htext, -⟩ := Pattern.parse_eq_ok.mp h
  have hshows := Pattern.shows_of_isCanonical hfits.1 0 []
  rw [List.append_nil, htext] at hshows
  exact hshows.trans (List.append_nil _)

/-- The capturing groups of a text that is read are numbered from 1 in the order of the parentheses
that open them, and a valid text has at most nine. The tree has its nodes where their texts stand. The
text is to be short enough for the numbers to last. -/
theorem groups_of_parse (h : parse s = .ok r) (hs : s.length < UInt32.size - 1) :
    r.root.captures.map UInt32.toNat = List.range' 1 (openings 0 s.toList).length ∧
      ((placed 0 r.root).map Placed.node = r.root.nodes ∧
        ∀ x ∈ placed 0 r.root, x.node.spelling <+: s.toList.drop x.start) ∧
      (placed 0 r.root).filterMap Placed.opening? = (openings 0 s.toList).zipIdx 1 ∧
      r.nextGroupId.toNat = (openings 0 s.toList).length + 1 ∧
      r.groupCount.toNat = (openings 0 s.toList).length ∧
      ((Validation.ofParsed r).groupCount = true ↔ (openings 0 s.toList).length ≤ 9) := by
  obtain ⟨-, htext, hnum, -, hnext⟩ := Pattern.parse_eq_ok.mp h
  have hids := Pattern.map_snd_opening r.root 0
  have hlen : r.root.captures.length = (openings 0 s.toList).length := by
    rw [openings_of_parse h, List.length_map, ← List.length_map UInt32.toNat, ← hids, List.length_map]
  have hle : (openings 0 s.toList).length ≤ s.length := Pattern.length_openings_le
  have hrange := Pattern.range_of_numberedFrom hnum (by rw [hlen, UInt32.toNat_one]; omega)
  rw [UInt32.toNat_one, hlen] at hrange
  have hnextNat : r.nextGroupId.toNat = (openings 0 s.toList).length + 1 := by
    rw [hnext, hlen, UInt32.toNat_add, UInt32.toNat_one, UInt32.toNat_ofNat']
    simp only [UInt32.size] at hs
    omega
  refine ⟨hrange, ⟨Pattern.map_node_placed r.root 0, ?_⟩, ?_, hnextNat, ?_, ?_⟩
  · intro x hx
    obtain ⟨before, after, hspell, hstart⟩ := Pattern.standIn_placed r.root 0 x hx
    rw [← htext, hspell, hstart, Nat.zero_add, List.append_assoc, List.drop_left]
    exact List.prefix_append _ _
  · rw [List.zipIdx_eq_zip_range', ← hrange, ← hids]
    exact List.zip_of_prod (openings_of_parse h).symm rfl
  · rw [Parsed.groupCount, UInt32.toNat_sub_of_le]
    · rw [hnextNat]
      rfl
    · rw [UInt32.le_iff_toNat_le, hnextNat]
      exact Nat.le_add_left 1 _
  · rw [Validation.ofParsed, Validation.of, decide_eq_true_iff, UInt32.le_iff_toNat_le, hnextNat]
    exact Nat.succ_le_succ_iff

/-- Two groups, the second in a repetition, among other things that begin with a parenthesis. -/
theorem groups_of_parse_nested :
    ∃ r, parse "(?:a)(b(\\1)<(c)>)" = .ok r ∧ "(?:a)(b(\\1)<(c)>)".length < UInt32.size - 1 ∧
      (placed 0 r.root).filterMap Placed.opening? = [(5, 1), (12, 2)] ∧ r.groupCount.toNat = 2 ∧
      (Validation.ofParsed r).groupCount = true := by
  let p : Pattern := .concat [.group none (.char 'a'), .group (some 1) (.concat [.char 'b',
    .strRef 1, .many (.group (some 2) (.char 'c'))])]
  have hparse : parse "(?:a)(b(\\1)<(c)>)" = .ok ⟨p, p.postorder, 3⟩ :=
    Pattern.parse_of_toOption (by with_unfolding_all decide)
  have hlen : "(?:a)(b(\\1)<(c)>)".length < UInt32.size - 1 := by decide
  have hplaces : openings 0 "(?:a)(b(\\1)<(c)>)".toList = [5, 12] := by decide
  obtain ⟨-, -, hgroups, -, hcount, hvalid⟩ := groups_of_parse hparse hlen
  rw [hplaces] at hgroups hcount hvalid
  exact ⟨_, hparse, hlen, hgroups, hcount, hvalid.mpr (by decide)⟩

end CaptureGrammar
