import CaptureGrammar.Text.Quoted

/-! Context-free grammars over characters, as tables of productions in a fixed order. -/
namespace CaptureGrammar

/-- A symbol of a right-hand side, with nonterminals from `ν`. -/
inductive Symbol (ν : Type) where
  | terminal (c : Char)
  | nonterminal (n : ν)
  /-- The empty word, written out. -/
  | epsilon
deriving DecidableEq

abbrev Production (ν : Type) := List (Symbol ν)

/-- All productions of one nonterminal. -/
structure Rule (ν : Type) where
  lhs : ν
  productions : List (Production ν)
deriving DecidableEq

/-- Rules stand in the order in which their nonterminals were first defined. -/
structure Grammar (ν : Type) where
  start : ν
  rules : List (Rule ν)
deriving DecidableEq

variable {ν : Type}

def Symbol.nonterminal? : Symbol ν → Option ν
  | .nonterminal n => some n
  | _ => none

theorem Symbol.nonterminal?_eq_some_iff {s : Symbol ν} {n : ν} :
    s.nonterminal? = some n ↔ s = .nonterminal n := by
  cases s <;> simp [nonterminal?]

def Symbol.text [ToString ν] : Symbol ν → String
  | .terminal c => Text.charLiteral c
  | .nonterminal n => toString n
  | .epsilon => "ε"

/-- One line for each production. -/
def Rule.text [ToString ν] (r : Rule ν) : String :=
  String.join (r.productions.map fun p =>
    toString r.lhs ++ " -> " ++ " ".intercalate (p.map Symbol.text) ++ "\n")

namespace Grammar

/-- The first rule for `n`. -/
def rule? [DecidableEq ν] (g : Grammar ν) (n : ν) : Option (Rule ν) :=
  g.rules.find? (·.lhs = n)

/-- The productions of the first rule for `n`. Without a rule there are none. -/
def productions [DecidableEq ν] (g : Grammar ν) (n : ν) : List (Production ν) :=
  (g.rule? n).elim [] Rule.productions

/-- The nonterminals on right-hand sides, in order of occurrence. -/
def mentioned (g : Grammar ν) : List ν :=
  g.rules.flatMap fun r => r.productions.flatMap (·.filterMap Symbol.nonterminal?)

/-- The nonterminals that are mentioned and have no rule, each where it is first mentioned. -/
def undefined [DecidableEq ν] (g : Grammar ν) : List ν :=
  (g.mentioned.filter fun n => g.rules.all (·.lhs ≠ n)).eraseDups

/-- The productions in order, one to a line. -/
def text [ToString ν] (g : Grammar ν) : String := String.join (g.rules.map Rule.text)

end Grammar

namespace Rule

variable [DecidableEq ν]

/-- The table with a rule for `n`. A new rule goes last and has no productions. -/
def define (n : ν) : List (Rule ν) → List (Rule ν)
  | [] => [⟨n, []⟩]
  | r :: rs => if r.lhs = n then r :: rs else r :: define n rs

/-- The table with `p` as the last production of `n`. -/
def push (n : ν) (p : Production ν) : List (Rule ν) → List (Rule ν)
  | [] => [⟨n, [p]⟩]
  | r :: rs =>
    if r.lhs = n then { r with productions := r.productions ++ [p] } :: rs
    else r :: push n p rs

end Rule

end CaptureGrammar
