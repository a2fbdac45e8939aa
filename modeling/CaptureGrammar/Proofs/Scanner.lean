import CaptureGrammar.Proofs.Lookahead

/-! A stack machine that goes over pattern text from left to right and builds nothing. -/
namespace CaptureGrammar.Pattern

/-- What can be open in the middle of a text. -/
inductive Bracket where
  | group
  | star
deriving DecidableEq

def Bracket.close : Bracket → Char
  | .group => ')'
  | .star => '>'

/-- What ends an expression, other than the end of the text, is a closing character. -/
theorem exists_close_of_endsExpression {cs : List Char} (h : endsExpression cs = true) :
    cs = [] ∨ ∃ b : Bracket, ∃ rest, cs = b.close :: rest := by
  cases cs with
  | nil => exact .inl rfl
  | cons c cs =>
    simp only [endsExpression, Bool.or_eq_true, beq_iff_eq] at h
    rcases h with rfl | rfl
    · exact .inr ⟨.group, cs, rfl⟩
    · exact .inr ⟨.star, cs, rfl⟩

/-- What is wrong if the bracket is not closed. -/
def Bracket.unclosed : Bracket → Error
  | .group => .unclosedGroup
  | .star => .unclosedRepetition

/-- Where the machine stands: the open brackets, latest first, and whether the branch that it is in
has an atom. -/
structure Scanner where
  stack : List Bracket := []
  hasAtom : Bool := false
deriving DecidableEq

namespace Scanner

variable {m n : Scanner} {b : Bracket} {stack : List Bracket} {c sigil : Char}
  {cs rest : List Char}

/-- Meets what opens `b`. -/
def enter (m : Scanner) (b : Bracket) (rest : List Char) : Except Error (Scanner × List Char) :=
  if m.stack.length = maxNesting then .error .tooDeep else .ok (⟨b :: m.stack, false⟩, rest)

/-- Meets the closing character `c`. -/
def leave (m : Scanner) (c : Char) (rest : List Char) : Except Error (Scanner × List Char) :=
  if m.hasAtom then
    match m.stack with
    | [] => .error (.unmatchedClose c)
    | b :: stack => if c = b.close then .ok (⟨stack, true⟩, rest) else .error b.unclosed
  else .error .emptyExpression

/-- Meets the text behind `(` and `sigil`. -/
def reference (m : Scanner) (sigil : Char) : List Char → Except Error (Scanner × List Char)
  | [] => .error .unclosedGroup
  | c :: cs =>
    if c.isDigit then
      match cs with
      | ')' :: rest => .ok (⟨m.stack, true⟩, rest)
      | _ => .error .unclosedGroup
    else .error (.unrecognizedAtom (String.ofList ['(', sigil, c]))

/-- Meets the character `c`, and after `(` what tells the kind of atom. The result says what of the
text is left. -/
def step (m : Scanner) : Char → List Char → Except Error (Scanner × List Char)
  | '|', rest => if m.hasAtom then .ok (⟨m.stack, false⟩, rest) else .error .emptyExpression
  | ')', rest => m.leave ')' rest
  | '>', rest => m.leave '>' rest
  | '<', rest => m.enter .star rest
  | '(', '\\' :: rest => m.reference '\\' rest
  | '(', '?' :: ':' :: rest => m.enter .group rest
  | '(', '?' :: rest => m.reference '?' rest
  | '(', rest => m.enter .group rest
  | _, rest => .ok (⟨m.stack, true⟩, rest)

/-- The verdict at the end of the text. -/
def finish (m : Scanner) : Except Error Unit :=
  match m.stack with
  | b :: _ => .error b.unclosed
  | [] => if m.hasAtom then .ok () else .error .emptyExpression

theorem suffix_of_enter (h : m.enter b cs = .ok (n, rest)) : rest <:+ cs := by
  simp only [enter] at h
  split at h
  · cases h
  · cases h
    exact List.suffix_refl _

theorem suffix_of_leave (h : m.leave c cs = .ok (n, rest)) : rest <:+ cs := by
  simp only [leave] at h
  split at h
  · split at h
    · cases h
    · split at h
      · cases h
        exact List.suffix_refl _
      · cases h
  · cases h

theorem suffix_of_reference (h : m.reference sigil cs = .ok (n, rest)) : rest <:+ cs := by
  simp only [reference] at h
  split at h
  · cases h
  · next d _ =>
    split at h
    · split at h
      · cases h
        exact List.suffix_append [d, ')'] _
      · cases h
    · cases h

/-- A step takes characters from the front of the text. -/
theorem suffix_of_step (h : m.step c cs = .ok (n, rest)) : rest <:+ cs := by
  unfold step at h
  split at h
  · split at h
    · cases h
      exact List.suffix_refl _
    · cases h
  · exact suffix_of_leave h
  · exact suffix_of_leave h
  · exact suffix_of_enter h
  · exact (suffix_of_reference h).trans (List.suffix_cons _ _)
  · exact (suffix_of_enter h).trans (List.suffix_append ['?', ':'] _)
  · exact (suffix_of_reference h).trans (List.suffix_cons _ _)
  · exact suffix_of_enter h
  · cases h
    exact List.suffix_refl _

theorem length_of_step (h : m.step c cs = .ok (n, rest)) : rest.length ≤ cs.length :=
  (suffix_of_step h).length_le

/-- The verdict on a text that the machine meets in state `m`. -/
def run (m : Scanner) : List Char → Except Error Unit
  | [] => m.finish
  | c :: cs =>
    match _h : m.step c cs with
    | .error e => .error e
    | .ok (n, rest) => run n rest
termination_by cs => cs.length
decreasing_by exact Nat.lt_succ_of_le (length_of_step ‹_›)

/-- The verdict after one step. -/
def resume : Except Error (Scanner × List Char) → Except Error Unit
  | .error e => .error e
  | .ok (m, rest) => m.run rest

theorem run_nil : m.run [] = m.finish := by rw [run]

theorem run_cons : m.run (c :: cs) = resume (m.step c cs) := by
  rw [run]
  split <;> simp_all [resume]

theorem reference_close (hc : c.isDigit) :
    m.reference sigil (c :: ')' :: rest) = .ok (⟨m.stack, true⟩, rest) := by
  simp only [reference, hc, if_true]

theorem reference_unclosed (hc : c.isDigit) (hne : ∀ rest, cs ≠ ')' :: rest) :
    m.reference sigil (c :: cs) = .error .unclosedGroup := by
  simp only [reference, hc, if_true]

theorem step_close : m.step b.close rest = m.leave b.close rest := by
  cases b <;> rfl

theorem step_group (hb : ∀ cs, rest ≠ '\\' :: cs) (hq : ∀ cs, rest ≠ '?' :: cs) :
    m.step '(' rest = m.enter .group rest := by
  unfold step
  split <;> simp_all

theorem step_exprRef (h : ∀ cs, rest ≠ ':' :: cs) :
    m.step '(' ('?' :: rest) = m.reference '?' rest := by
  simp only [step]

theorem step_char (h : c ∉ ['|', ')', '>', '<', '(']) :
    m.step c rest = .ok (⟨m.stack, true⟩, rest) := by
  unfold step
  split <;> simp_all

end Scanner

end CaptureGrammar.Pattern
