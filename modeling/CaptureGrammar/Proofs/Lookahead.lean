import CaptureGrammar.Pattern.Reader.Expression

/-! What stands behind a sequence and behind an expression. -/
namespace CaptureGrammar.Pattern

variable {cs : List Char}

/-- Whether an expression ends before this text. -/
def endsExpression : List Char → Bool
  | [] => true
  | c :: _ => c == ')' || c == '>'

theorem endsSequence_iff :
    endsSequence cs = true ↔ endsExpression cs = true ∨ ∃ rest, cs = '|' :: rest := by
  cases cs with
  | nil => simp [endsSequence, endsExpression]
  | cons c cs =>
    simp only [endsSequence, endsExpression, Bool.or_eq_true, beq_iff_eq, List.cons.injEq]
    constructor
    · rintro ((rfl | h) | h)
      · exact .inr ⟨cs, rfl, rfl⟩
      · exact .inl (.inl h)
      · exact .inl (.inr h)
    · rintro ((h | h) | ⟨_, h, _⟩)
      · exact .inl (.inr h)
      · exact .inr h
      · exact .inl (.inl h)

theorem endsSequence_of_endsExpression (h : endsExpression cs = true) : endsSequence cs = true :=
  endsSequence_iff.mpr (.inl h)

end CaptureGrammar.Pattern
