import CaptureGrammar.Pattern.Basic

/-! The nonterminals that stand for the nodes of a pattern. -/
namespace CaptureGrammar

/-- The kinds of node that are told apart by counting. -/
inductive Category where
  | char
  | concat
  | alt
  | group
  | star
deriving DecidableEq

def Category.stem : Category → String
  | .char => "Char"
  | .concat => "C"
  | .alt => "A"
  | .group => "Ncg"
  | .star => "R"

/-- A capturing group and the references to it share the nonterminal with the group's number. -/
inductive Nonterminal where
  | start
  /-- The `n`-th node of its category, from 1. -/
  | node (category : Category) (n : UInt32)
  | capture (id : GroupId)
deriving DecidableEq

namespace Nonterminal

def name : Nonterminal → String
  | .start => "S"
  | .node category n => category.stem ++ toString n
  | .capture id => "G" ++ toString id

instance : ToString Nonterminal := ⟨name⟩

end Nonterminal

end CaptureGrammar
