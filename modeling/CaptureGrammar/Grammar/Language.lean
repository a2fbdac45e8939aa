import CaptureGrammar.Grammar.Basic

/-! The words that a grammar derives. -/
namespace CaptureGrammar.Grammar

variable {ν : Type}

/-- `Derives g p w` says that replacing nonterminals by their productions leads from the symbols `p`
to the word `w`. A nonterminal without a rule derives nothing. -/
inductive Derives (g : Grammar ν) : Production ν → List Char → Prop
  | nil : Derives g [] []
  | terminal {c p w} : Derives g p w → Derives g (.terminal c :: p) (c :: w)
  | epsilon {p w} : Derives g p w → Derives g (.epsilon :: p) w
  | nonterminal {r q p v w} : r ∈ g.rules → q ∈ r.productions → Derives g q v → Derives g p w →
      Derives g (.nonterminal r.lhs :: p) (v ++ w)

/-- The words derived from the start symbol. -/
def Generates (g : Grammar ν) (w : List Char) : Prop := g.Derives [.nonterminal g.start] w

end CaptureGrammar.Grammar
