import CaptureGrammar.Pattern.Reader.Basic

/-! Atoms, the smallest parts of pattern text, read with a given reader for what stands inside
brackets. -/
namespace CaptureGrammar.Pattern

variable {r : Reader Pattern}

/-- Reads the digit and the `)` of a reference, of which `(` and `sigil` have been passed. -/
def reference (sigil : Char) (refer : GroupId → Pattern) : Reader Pattern := fun s =>
  match s.rest with
  | [] => .error .unclosedGroup s
  | c :: rest =>
    if c.isDigit then
      match rest with
      | ')' :: rest => finish (refer (c.val - '0'.val)) { s with rest }
      | _ => .error .unclosedGroup s
    else .error (.unrecognizedAtom (String.ofList ['(', sigil, c])) s

/-- Reads a body and `close` behind it. What opened the body is `unclosed` if something else stands
in that place, or if the text ends before it. -/
def enclosed (body : Reader Pattern) (close : Char) (unclosed : Error) : Reader Pattern := fun s =>
  match body s with
  | .error e t => .error (if e = .emptyExpression ∧ t.rest = [] then unclosed else e) t
  | .ok p t =>
    match t.rest with
    | [] => .error unclosed t
    | c :: rest => if c = close then .ok p { t with rest } else .error unclosed t

/-- Reads the body of a group and its `)`. -/
def groupBody (body : Reader Pattern) (id : Option GroupId) : Reader Pattern := do
  finish (.group id (← enclosed body ')' .unclosedGroup))

/-- Reads the body of a repetition and its `>`. -/
def starBody (body : Reader Pattern) : Reader Pattern := do
  finish (.many (← enclosed body '>' .unclosedRepetition))

/-- Reads an atom. A capturing group is numbered before its body is read. -/
def atom (body : Reader Pattern) : Reader Pattern := fun s =>
  match s.rest with
  | [] => .error .emptyExpression s
  | '(' :: '\\' :: rest => reference '\\' .strRef { s with rest }
  | '(' :: '?' :: ':' :: rest => groupBody body none { s with rest }
  | '(' :: '?' :: rest => reference '?' .exprRef { s with rest }
  | '(' :: rest =>
    groupBody body (some s.nextId)
      { s with rest, nextId := s.nextId + 1, opened := s.nextId :: s.opened }
  | '<' :: rest => starBody body { s with rest }
  | c :: rest => finish (.char c) { s with rest }

theorem reference_advances {sigil : Char} {refer : GroupId → Pattern} :
    (reference sigil refer).Advances := by
  intro s p t h
  unfold reference at h
  split at h
  · cases h
  · next hs =>
    split at h
    · split at h
      · cases h
        simp only [hs, List.length_cons]
        omega
      · cases h
    · cases h

theorem enclosed_advances (hr : r.Advances) {close : Char} {unclosed : Error} :
    (enclosed r close unclosed).Advances := by
  intro s p t h
  unfold enclosed at h
  split at h
  · cases h
  · next u hu =>
    split at h
    · cases h
    · next hs =>
      split at h
      · cases h
        have hlt := hr hu
        rw [hs] at hlt
        exact Nat.lt_of_succ_lt hlt
      · cases h

theorem groupBody_advances (hr : r.Advances) {id : Option GroupId} :
    (groupBody r id).Advances := by
  intro s p t h
  simp only [groupBody, bind, EStateM.bind] at h
  split at h
  · next hu =>
    cases h
    exact (enclosed_advances hr hu :)
  · cases h

theorem starBody_advances (hr : r.Advances) : (starBody r).Advances := by
  intro s p t h
  simp only [starBody, bind, EStateM.bind] at h
  split at h
  · next hu =>
    cases h
    exact (enclosed_advances hr hu :)
  · cases h

theorem atom_advances (hr : r.Advances) : (atom r).Advances := by
  intro s p t h
  unfold atom at h
  split at h <;> rename_i hs <;> simp only [hs, List.length_cons]
  · cases h
  · exact Nat.lt_add_right 2 (reference_advances h)
  · exact Nat.lt_add_right 3 (groupBody_advances hr h)
  · exact Nat.lt_add_right 2 (reference_advances h)
  · exact Nat.lt_add_right 1 (groupBody_advances hr h)
  · exact Nat.lt_add_right 1 (starBody_advances hr h)
  · cases h
    exact Nat.lt_add_one _

end CaptureGrammar.Pattern
