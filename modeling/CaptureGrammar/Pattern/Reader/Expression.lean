import CaptureGrammar.Pattern.Reader.Atom

/-!
Reading a pattern from text, by recursive descent over

    expression := sequence ('|' sequence)*
    sequence   := atom+
    atom       := '(' expression ')' | '(?:' expression ')' | '<' expression '>'
                | '(?' digit ')' | '(\' digit ')' | any other character

A sequence ends before `|`, `)`, `>` and at the end of the text.
-/
namespace CaptureGrammar.Pattern

variable {s t : Cursor} {ps : List Pattern}

/-- A reader for what stands inside brackets. -/
structure Body where
  read : Reader Pattern
  advances : read.Advances

variable {body : Body}

/-- Whether a sequence ends before this text. -/
def endsSequence : List Char → Bool
  | [] => true
  | c :: _ => c == '|' || c == ')' || c == '>'

/-- Reads atoms up to the end of their sequence. -/
def atoms (body : Body) (s : Cursor) : EStateM.Result Error Cursor (List Pattern) :=
  if endsSequence s.rest then .ok [] s
  else
    match _h : atom body.read s with
    | .error e t => .error e t
    | .ok p t =>
      match atoms body t with
      | .error e u => .error e u
      | .ok ps u => .ok (p :: ps) u
termination_by s.rest.length
decreasing_by exact atom_advances body.advances ‹_›

/-- Reads a sequence. A single atom stands for itself. -/
def sequence (body : Body) : Reader Pattern := fun s =>
  match atoms body s with
  | .error e t => .error e t
  | .ok [] t => .error .emptyExpression t
  | .ok [p] t => .ok p t
  | .ok (p :: q :: ps) t => finish (.concat (p :: q :: ps)) t

/-- Each atom takes at least one character. -/
theorem rest_length_le_of_atoms (h : atoms body s = .ok ps t) :
    t.rest.length + ps.length ≤ s.rest.length := by
  fun_induction atoms body s generalizing ps t with
  | case1 =>
    cases h
    exact Nat.le_refl _
  | case2 => cases h
  | case3 => cases h
  | case4 s _ p u hu qs v hv ih =>
    cases h
    exact Nat.lt_of_le_of_lt (ih hv) (atom_advances body.advances hu)

theorem sequence_advances : (sequence body).Advances := by
  intro s p t h
  unfold sequence at h
  split at h
  · cases h
  · cases h
  · next hs =>
    cases h
    have hle := rest_length_le_of_atoms hs
    rw [List.length_singleton] at hle
    exact hle
  · next hs =>
    cases h
    have hle := rest_length_le_of_atoms hs
    rw [List.length_cons] at hle
    exact Nat.lt_of_lt_of_le (Nat.lt_add_of_pos_right (Nat.zero_lt_succ _)) hle

/-- Reads the branches of an expression, of which there is at least one. -/
def branches (body : Body) (s : Cursor) : EStateM.Result Error Cursor (List Pattern) :=
  match _h : sequence body s with
  | .error e t => .error e t
  | .ok p t =>
    match _ht : t.rest with
    | '|' :: rest =>
      match branches body { t with rest } with
      | .error e u => .error e u
      | .ok ps u => .ok (p :: ps) u
    | _ => .ok [p] t
termination_by s.rest.length
decreasing_by
  have hlt := sequence_advances ‹sequence body s = _›
  rw [‹t.rest = _›] at hlt
  exact Nat.lt_of_succ_lt hlt

/-- Reads an expression. A single branch stands for itself. -/
def expression (body : Body) : Reader Pattern := fun s =>
  match branches body s with
  | .error e t => .error e t
  | .ok [p] t => .ok p t
  | .ok ps t => finish (.alt ps) t

theorem rest_length_lt_of_branches (h : branches body s = .ok ps t) :
    t.rest.length < s.rest.length := by
  fun_induction branches body s generalizing ps t with
  | case1 => cases h
  | case2 => cases h
  | case3 s p u hu rest hr qs v hv ih =>
    cases h
    have hlt := sequence_advances hu
    rw [hr] at hlt
    exact Nat.lt_trans (ih hv) (Nat.lt_of_succ_lt hlt)
  | case4 s p u hu =>
    cases h
    exact sequence_advances hu

theorem expression_advances : (expression body).Advances := by
  intro s p t h
  unfold expression at h
  split at h
  · cases h
  · next hs =>
    cases h
    exact rest_length_lt_of_branches hs
  · next hs =>
    cases h
    exact (rest_length_lt_of_branches hs :)

/-- The reader for the inside of a bracket that is opened where `n` more levels of brackets are
allowed. -/
def interior : Nat → Body
  | 0 => ⟨fun s => .error .tooDeep s, fun _ _ _ h => nomatch h⟩
  | n + 1 => ⟨expression (interior n), expression_advances⟩

/-- Reads the whole of `cs` as one expression. -/
def readAll (cs : List Char) : EStateM.Result Error Cursor Pattern :=
  match expression (interior maxNesting) { rest := cs } with
  | .error e t => .error e t
  | .ok p t =>
    match t.rest with
    | [] => .ok p t
    | c :: _ => .error (.unmatchedClose c) t

end CaptureGrammar.Pattern
