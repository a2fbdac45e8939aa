import CaptureGrammar.Pattern.Outline
import CaptureGrammar.Proofs.SummaryText

/-!
The outline of a pattern tells all of it but the bounds of its repetitions.

The lines of a node that stands deeper than another begin with more spaces, so the bracket that
closes a node cannot be taken for the first line of one more part.
-/
namespace CaptureGrammar.Pattern

variable {p q : Pattern} {ps qs : List Pattern} {c : Char} {d : Nat}
  {u v name opening parts parts' : List Char}

mutual

/-- The pattern in which every repetition is unbounded. -/
def withoutBounds : Pattern → Pattern
  | .char c => .char c
  | .concat ps => .concat (withoutBoundsOfAll ps)
  | .alt ps => .alt (withoutBoundsOfAll ps)
  | .group id p => .group id (withoutBounds p)
  | .star p _ _ => .many (withoutBounds p)
  | .exprRef id => .exprRef id
  | .strRef id => .strRef id

def withoutBoundsOfAll : List Pattern → List Pattern
  | [] => []
  | p :: ps => withoutBounds p :: withoutBoundsOfAll ps

end

mutual

theorem outlineAt_withoutBounds : (p : Pattern) → (d : Nat) →
    outlineAt d p.withoutBounds = outlineAt d p
  | .char _, _ | .exprRef _, _ | .strRef _, _ => rfl
  | .concat ps, d | .alt ps, d =>
    congrArg (outlineBlock d _ _) (outlinesAt_withoutBoundsOfAll ps (d + 1))
  | .group none p, d | .group (some _) p, d | .star p _ _, d =>
    congrArg (outlineBlock d _ _) (outlineAt_withoutBounds p (d + 1))

theorem outlinesAt_withoutBoundsOfAll : (ps : List Pattern) → (d : Nat) →
    outlinesAt d (withoutBoundsOfAll ps) = outlinesAt d ps
  | [], _ => rfl
  | p :: ps, d => by
    rw [withoutBoundsOfAll, outlinesAt, outlineAt_withoutBounds, outlinesAt_withoutBoundsOfAll,
      outlinesAt]

end

/-! ### The lines of the kinds of node -/

/-- The spaces before a line at nesting depth `d`. -/
def indent (d : Nat) : List Char := List.replicate (4 * d) ' '

theorem indent_succ : indent (d + 1) = indent d ++ [' ', ' ', ' ', ' '] :=
  List.replicate_append_replicate.symm

def outlineChars (d : Nat) (p : Pattern) : List Char := (outlineAt d p).toList

def outlinesChars (d : Nat) (ps : List Pattern) : List Char := (outlinesAt d ps).toList

/-- A block with the lines `parts` between its brackets, from its name on. -/
def blockChars (d : Nat) (name opening parts : List Char) : List Char :=
  name ++ '\n' :: (indent d ++ (opening ++ '\n' :: (parts ++ (indent d ++ [')', '\n']))))

theorem toList_outlineLine {text : String} :
    (outlineLine d text).toList = indent d ++ (text.toList ++ ['\n']) := by
  simp [outlineLine, indent]

theorem toList_outlineBlock {name opening parts : String} :
    (outlineBlock d name opening parts).toList =
      indent d ++ blockChars d name.toList opening.toList parts.toList := by
  simp [outlineBlock, toList_outlineLine, blockChars]

@[simp] theorem outlineChars_char : outlineChars d (.char c) =
    indent d ++ ("Char(".toList ++ ((Text.charLiteral c).toList ++ [')', '\n'])) :=
  toList_outlineLine.trans (by simp)

@[simp] theorem outlineChars_concat : outlineChars d (.concat ps) =
    indent d ++ blockChars d "Concat".toList ['('] (outlinesChars (d + 1) ps) :=
  toList_outlineBlock

@[simp] theorem outlineChars_alt : outlineChars d (.alt ps) =
    indent d ++ blockChars d "Alt".toList ['('] (outlinesChars (d + 1) ps) :=
  toList_outlineBlock

@[simp] theorem outlineChars_group {id : Option GroupId} : outlineChars d (.group id p) =
    indent d ++ blockChars d "Group".toList ('(' :: (numberOr '?' [':'] id ++ [',']))
      (outlineChars (d + 1) p) := by
  cases id with
  | none => exact toList_outlineBlock
  | some id => exact toList_outlineBlock.trans (by simp [outlineChars, numberOr])

@[simp] theorem outlineChars_star {min : UInt32} {max : Option UInt32} :
    outlineChars d (.star p min max) =
      indent d ++ blockChars d "Star".toList ['('] (outlineChars (d + 1) p) :=
  toList_outlineBlock

@[simp] theorem outlineChars_exprRef {id : GroupId} : outlineChars d (.exprRef id) =
    indent d ++ ("ExprRef(".toList ++ ((toString id).toList ++ [')', '\n'])) :=
  toList_outlineLine.trans (by simp)

@[simp] theorem outlineChars_strRef {id : GroupId} : outlineChars d (.strRef id) =
    indent d ++ ("StrRef(".toList ++ ((toString id).toList ++ [')', '\n'])) :=
  toList_outlineLine.trans (by simp)

theorem outlinesChars_cons :
    outlinesChars d (p :: ps) = outlineChars d p ++ outlinesChars d ps :=
  String.toList_append

/-! ### Reading the lines -/

/-- Whether the lines of `p`, at any depth, tell `p` up to bounds and where they end. -/
def OutlineTold (p : Pattern) : Prop :=
  ∀ ⦃q d u v⦄, outlineChars d p ++ u = outlineChars d q ++ v →
    p.withoutBounds = q.withoutBounds ∧ u = v

/-- Blocks with the same name and opening bracket differ only in what follows these. -/
theorem parts_of_blockChars
    (h : blockChars d name opening parts ++ u = blockChars d name opening parts' ++ v) :
    parts ++ (indent d ++ ')' :: '\n' :: u) = parts' ++ (indent d ++ ')' :: '\n' :: v) := by
  simpa [blockChars] using h

theorem outlineChars_succ_append_ne : outlineChars (d + 1) p ++ u ≠ indent d ++ ')' :: v := by
  cases p <;> simp [indent_succ]

theorem outlines_inj (hps : ∀ p ∈ ps, OutlineTold p)
    (h : outlinesChars (d + 1) ps ++ (indent d ++ ')' :: u) =
      outlinesChars (d + 1) qs ++ (indent d ++ ')' :: v)) :
    withoutBoundsOfAll ps = withoutBoundsOfAll qs ∧ u = v := by
  induction ps generalizing qs with
  | nil =>
    cases qs with
    | nil => exact ⟨rfl, (List.cons.inj (List.append_cancel_left (List.append_cancel_left h))).2⟩
    | cons q qs =>
      rw [outlinesChars_cons, List.append_assoc] at h
      exact absurd h.symm outlineChars_succ_append_ne
  | cons p ps ih =>
    rw [outlinesChars_cons, List.append_assoc] at h
    cases qs with
    | nil => exact absurd h outlineChars_succ_append_ne
    | cons q qs =>
      rw [outlinesChars_cons, List.append_assoc] at h
      obtain ⟨hp, hps⟩ := List.forall_mem_cons.mp hps
      obtain ⟨hpq, hrest⟩ := hp h
      obtain ⟨hpsqs, huv⟩ := ih hps hrest
      exact ⟨by rw [withoutBoundsOfAll, hpq, hpsqs, withoutBoundsOfAll], huv⟩

theorem outlineTold (p : Pattern) : OutlineTold p := by
  induction p using childrenInduction with
  | node p ih =>
    intro q d u v h
    cases p with
    | char c =>
      cases q with
      | char c' =>
        simp only [outlineChars_char, List.append_assoc, List.append_cancel_left_eq] at h
        obtain ⟨rfl, hrest⟩ := Text.readable_charLiteral c trivial trivial h
        exact ⟨rfl, List.append_cancel_left hrest⟩
      | _ => simp [blockChars] at h
    | concat ps =>
      cases q with
      | concat qs =>
        simp only [outlineChars_concat, List.append_assoc, List.append_cancel_left_eq] at h
        obtain ⟨hparts, hrest⟩ := outlines_inj ih (parts_of_blockChars h)
        exact ⟨congrArg concat hparts, (List.cons.inj hrest).2⟩
      | _ => simp [blockChars] at h
    | alt ps =>
      cases q with
      | alt qs =>
        simp only [outlineChars_alt, List.append_assoc, List.append_cancel_left_eq] at h
        obtain ⟨hparts, hrest⟩ := outlines_inj ih (parts_of_blockChars h)
        exact ⟨congrArg alt hparts, (List.cons.inj hrest).2⟩
      | _ => simp [blockChars] at h
    | group id p =>
      cases q with
      | group id' q =>
        simp only [outlineChars_group, blockChars, List.append_assoc, List.append_cancel_left_eq,
          List.cons_append, List.nil_append, List.cons.injEq, true_and] at h
        obtain ⟨rfl, hbody⟩ := readable_numberOr rfl id stops_comma stops_comma h
        simp only [List.cons.injEq, true_and] at hbody
        obtain ⟨hpq, hrest⟩ := ih p (List.mem_singleton_self p) hbody
        simp only [List.append_cancel_left_eq, List.cons.injEq, true_and] at hrest
        exact ⟨congrArg (group id) hpq, hrest⟩
      | _ => simp [blockChars] at h
    | star p min max =>
      cases q with
      | star q min' max' =>
        simp only [outlineChars_star, List.append_assoc, List.append_cancel_left_eq] at h
        obtain ⟨hpq, hrest⟩ := ih p (List.mem_singleton_self p) (parts_of_blockChars h)
        simp only [List.append_cancel_left_eq, List.cons.injEq, true_and] at hrest
        exact ⟨congrArg many hpq, hrest⟩
      | _ => simp [blockChars] at h
    | exprRef id =>
      cases q with
      | exprRef id' =>
        simp only [outlineChars_exprRef, List.append_assoc, List.append_cancel_left_eq] at h
        obtain ⟨rfl, hrest⟩ := readable_number id stops_close stops_close h
        exact ⟨rfl, (List.cons.inj (List.cons.inj hrest).2).2⟩
      | _ => simp [blockChars] at h
    | strRef id =>
      cases q with
      | strRef id' =>
        simp only [outlineChars_strRef, List.append_assoc, List.append_cancel_left_eq] at h
        obtain ⟨rfl, hrest⟩ := readable_number id stops_close stops_close h
        exact ⟨rfl, (List.cons.inj (List.cons.inj hrest).2).2⟩
      | _ => simp [blockChars] at h

/-- Two trees have the same outline just when they are the same once all repetitions are made
unbounded. -/
theorem outline_inj : p.outline = q.outline ↔ p.withoutBounds = q.withoutBounds := by
  constructor
  · intro h
    have happend : outlineChars 0 p ++ [] = outlineChars 0 q ++ [] :=
      congrArg (String.toList · ++ []) h
    exact (outlineTold p happend).1
  · intro h
    rw [outline, outline, ← outlineAt_withoutBounds p, h, outlineAt_withoutBounds]

end CaptureGrammar.Pattern
