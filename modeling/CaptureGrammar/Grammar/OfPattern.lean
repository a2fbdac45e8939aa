import CaptureGrammar.Grammar.Basic
import CaptureGrammar.Grammar.Nonterminal

/-! The grammar of a pattern: a nonterminal for each node, numbered as the tree is walked from the
root, children in order. -/
namespace CaptureGrammar

/-- How many nodes of each category have been numbered. -/
structure Counts where
  char : UInt32 := 0
  concat : UInt32 := 0
  alt : UInt32 := 0
  group : UInt32 := 0
  star : UInt32 := 0
deriving DecidableEq

namespace Counts

def get (k : Counts) : Category → UInt32
  | .char => k.char
  | .concat => k.concat
  | .alt => k.alt
  | .group => k.group
  | .star => k.star

/-- Counts one more node of a category. -/
def next (k : Counts) : Category → Counts
  | .char => { k with char := k.char + 1 }
  | .concat => { k with concat := k.concat + 1 }
  | .alt => { k with alt := k.alt + 1 }
  | .group => { k with group := k.group + 1 }
  | .star => { k with star := k.star + 1 }

end Counts

/-- A grammar under construction. -/
structure Builder where
  counts : Counts := {}
  rules : List (Rule Nonterminal) := []
  /-- The numbered nonterminals, latest first. -/
  allocated : List Nonterminal := []
deriving DecidableEq

namespace Builder

/-- Makes sure that `n` has a rule. -/
def define (n : Nonterminal) : StateM Builder Unit :=
  modify fun b => { b with rules := Rule.define n b.rules }

/-- Gives `n` a further production. -/
def push (n : Nonterminal) (p : Production Nonterminal) : StateM Builder Unit :=
  modify fun b => { b with rules := Rule.push n p b.rules }

/-- Numbers one more node of `category` and gives it a rule. -/
def allocate (category : Category) : StateM Builder Nonterminal := do
  let counts := (← get).counts.next category
  let n := Nonterminal.node category (counts.get category)
  modify fun b => { b with counts, allocated := n :: b.allocated }
  define n
  return n

/-- The nonterminal of a group, with a rule. Capturing groups of one number share it. -/
def allocateGroup : Option GroupId → StateM Builder Nonterminal
  | some id => do
    define (.capture id)
    return .capture id
  | none => allocate .group

mutual

/-- Adds the rules of a pattern. The result is the nonterminal that stands for it. -/
def add : Pattern → StateM Builder Nonterminal
  | .char c => do
    let n ← allocate .char
    push n [.terminal c]
    return n
  | .concat ps => do
    let n ← allocate .concat
    push n (← addParts ps)
    return n
  | .alt ps => do
    let n ← allocate .alt
    addBranches n ps
    return n
  | .group id p => do
    let n ← allocateGroup id
    push n [.nonterminal (← add p)]
    return n
  | .star p _ _ => do
    let n ← allocate .star
    push n [.nonterminal (← add p), .nonterminal n]
    push n [.epsilon]
    return n
  | .exprRef id | .strRef id => return .capture id

/-- Adds the rules of patterns in a row, whose nonterminals make up one production. -/
def addParts : List Pattern → StateM Builder (Production Nonterminal)
  | [] => return []
  | p :: ps => do
    let n ← add p
    return .nonterminal n :: (← addParts ps)

/-- Adds the rules of branches, each of which is a production of `n`. -/
def addBranches (n : Nonterminal) : List Pattern → StateM Builder Unit
  | [] => return
  | p :: ps => do
    push n [.nonterminal (← add p)]
    addBranches n ps

end

/-- Defines the start symbol, which has the root of the tree as its only production. -/
def addRoot (p : Pattern) : StateM Builder Unit := do
  define .start
  push .start [.nonterminal (← add p)]

/-- What walking `p` builds. -/
def ofPattern (p : Pattern) : Builder := ((addRoot p).run {}).2

end Builder

namespace Grammar

def ofPattern (p : Pattern) : Grammar Nonterminal := ⟨.start, (Builder.ofPattern p).rules⟩

end Grammar

end CaptureGrammar
