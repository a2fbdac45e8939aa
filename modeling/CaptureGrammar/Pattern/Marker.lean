/-! The postfix marker `*` for repetition, rewritten to brackets: `(…)*` becomes `<(…)>`. -/
namespace CaptureGrammar.Pattern

/-- The length of the shortest start of the text in which `(` and `)` occur equally often, and at
least once. Before the text, `opens` and `closes` of them have been counted. -/
def balancedLength? (opens closes : Nat) : List Char → Option Nat
  | [] => none
  | c :: cs =>
    let opens := if c = '(' then opens + 1 else opens
    let closes := if c = ')' then closes + 1 else closes
    if opens = closes ∧ 0 < opens then some 1
    else (balancedLength? opens closes cs).map (· + 1)

/-- The text before a marker, with `<` put where the repetition is to begin: before the shortest end
of the text in which parentheses occur and balance by number. Without one, no `<` is put in. -/
def openRepetition (before : List Char) : List Char :=
  match balancedLength? 0 0 before.reverse with
  | none => before
  | some n => before.take (before.length - n) ++ '<' :: before.drop (before.length - n)

/-- Rewrites the first marker to `>`, and puts in a `<` for it. The other markers stay. -/
def rewriteMarker (cs : List Char) : List Char :=
  match cs.span (· != '*') with
  | (_, []) => cs
  | (before, _ :: after) => openRepetition before ++ '>' :: after

/-- The text of a pattern with its first marker, if there is one, rewritten to brackets. -/
def normalize (source : String) : String := String.ofList (rewriteMarker source.toList)

/-- Whether there is a marker to rewrite. -/
def hasMarker (source : String) : Bool := source.toList.contains '*'

end CaptureGrammar.Pattern
