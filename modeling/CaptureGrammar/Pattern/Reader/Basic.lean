import CaptureGrammar.Pattern.Basic
import CaptureGrammar.Pattern.Error

/-! Readers: steps that take pattern text from its front and record what they complete. -/
namespace CaptureGrammar.Pattern

/-- What is left to read, and what has come of reading so far. -/
structure Cursor where
  rest : List Char
  /-- The number for the next capturing group. -/
  nextId : GroupId := 1
  /-- The records of the complete nodes, latest first. -/
  finished : List Completion := []
  /-- The numbers of the capturing groups that have been opened, latest first. -/
  opened : List GroupId := []
deriving DecidableEq

/-- A step of reading. A failure leaves a cursor too, from which to see how far reading got. -/
abbrev Reader (α : Type) := EStateM Error Cursor α

/-- Success takes at least one character. -/
def Reader.Advances {α : Type} (r : Reader α) : Prop :=
  ∀ ⦃s a t⦄, r s = .ok a t → t.rest.length < s.rest.length

/-- Records that the node of `p` is complete. -/
def finish (p : Pattern) : Reader Pattern := fun s =>
  .ok p { s with finished := p.completion :: s.finished }

end CaptureGrammar.Pattern
