import CaptureGrammar.Proofs.FinalErrors
import CaptureGrammar.Proofs.RoundTrip

/-!
How deep the trees are that can be read, and what becomes of the text of a deeper one.

Between two brackets on a way through a tree that text spells there is at most an alternative and a
sequence, so few brackets make for a short way. The machine opens one level for each bracket and
closes it again behind the bracket, so it meets the limit on the way on which brackets nest deepest.
-/
namespace CaptureGrammar.Pattern

open Scanner (resume)

variable {p q : Pattern} {ps path : List Pattern} {σ : List Bracket} {u v w : List Char}
  {m n : Nat} {b : Bracket}

/-- A way from the root of a tree down to a node without children, by the nodes on it. -/
inductive IsPath : Pattern → List Pattern → Prop
  | leaf {p : Pattern} : p.children = [] → IsPath p [p]
  | step {p q : Pattern} {path : List Pattern} : q ∈ p.children → IsPath q path →
      IsPath p (p :: path)

/-- Whether a node is a group or a repetition. -/
def isBracket : Pattern → Bool
  | .group .. | .star .. => true
  | _ => false

/-- How many nodes there can be from a node down to the next bracket below it. -/
def layers : Pattern → Nat
  | .alt _ => 3
  | .concat _ => 2
  | _ => 1

theorem layers_le (p : Pattern) : p.layers ≤ 3 := by
  cases p <;> simp [layers]

theorem IsBranch.layers_le (h : p.IsBranch) : p.layers ≤ 2 := by
  cases p with
  | alt ps => cases h
  | _ => simp [layers]

theorem IsAtom.layers_eq (h : p.IsAtom) : p.layers = 1 := by
  cases p with
  | concat ps | alt ps => cases h
  | _ => rfl

theorem layers_pos (p : Pattern) : 0 < p.layers := by
  cases p <;> simp [layers]

theorem length_le_of_isPath (h : p.IsCanonical) (hpath : p.IsPath path) :
    path.length ≤ 3 * path.countP isBracket + p.layers := by
  induction hpath with
  | @leaf p hp =>
    have hpos := p.layers_pos
    rw [List.length_singleton]
    omega
  | @step p q path hq hpath ih =>
    have hle := ih (h.of_mem_children hq)
    rw [List.length_cons, List.countP_cons]
    cases p with
    | concat ps =>
      have hatom : q.layers = 1 := IsAtom.layers_eq (isAtom_iff.mpr (h.2.2 q hq))
      simp only [isBracket, layers, Bool.false_eq_true, if_false]
      omega
    | alt ps =>
      have hbranch : q.layers ≤ 2 := IsBranch.layers_le (isBranch_iff.mpr (h.2.2 q hq))
      simp only [isBracket, layers, Bool.false_eq_true, if_false]
      omega
    | group id p | star p min max =>
      have hany := q.layers_le
      simp only [isBracket, layers, if_true]
      omega
    | char | exprRef | strRef => cases hq

theorem nesting_le_of_mem_children (h : q ∈ p.children) :
    q.nesting + (if p.isBracket then 1 else 0) ≤ p.nesting := by
  cases p with
  | concat ps | alt ps => exact nestingOfAll_le_iff.mp (Nat.le_refl _) q h
  | group id p | star p min max =>
    cases List.mem_singleton.mp h
    exact Nat.le_refl _
  | char | exprRef | strRef => cases h

theorem countP_isBracket_le_nesting (h : p.IsPath path) : path.countP isBracket ≤ p.nesting := by
  induction h with
  | @leaf p hp =>
    cases p with
    | group | star => cases hp
    | _ => exact Nat.zero_le _
  | @step p q path hq hpath ih =>
    have hle := nesting_le_of_mem_children hq
    rw [List.countP_cons]
    omega

/-! ### The machine on the texts of trees -/

/-- Whether `cs` is the text of a whole that nests brackets `n` deep: the machine gets over it with
the same brackets open, or has not enough levels left for it. -/
def Crosses (σ : List Bracket) (cs : List Char) (n : Nat) : Prop :=
  ∀ flag rest, Scanner.run ⟨σ, flag⟩ (cs ++ rest) =
    if σ.length + n ≤ maxNesting then Scanner.run ⟨σ, true⟩ rest else .error .tooDeep

namespace Crosses

/-- Of two texts the one that nests deeper decides. -/
theorem append (hv : Crosses σ v m) (hw : Crosses σ w n) : Crosses σ (v ++ w) (max m n) := by
  intro flag rest
  rw [List.append_assoc, hv, hw, ← Nat.add_max_add_left]
  by_cases hm : σ.length + m ≤ maxNesting <;>
    simp only [Nat.max_le, hm, true_and, false_and, if_true, if_false]

theorem bar (hv : Crosses σ v m) (hw : Crosses σ w n) : Crosses σ (v ++ '|' :: w) (max m n) := by
  intro flag rest
  have hbar : Scanner.run ⟨σ, true⟩ ('|' :: (w ++ rest)) = Scanner.run ⟨σ, false⟩ (w ++ rest) :=
    Scanner.run_cons
  rw [List.append_assoc, List.cons_append, hv, hbar, hw, ← Nat.add_max_add_left]
  by_cases hm : σ.length + m ≤ maxNesting <;>
    simp only [Nat.max_le, hm, true_and, false_and, if_true, if_false]

/-- What takes the machine into `b`, a text inside, and what closes `b`. -/
theorem enclose (hσ : σ.length ≤ maxNesting)
    (hopen : ∀ flag rest, Scanner.run ⟨σ, flag⟩ (v ++ (u ++ rest)) =
      resume (Scanner.enter ⟨σ, flag⟩ b (u ++ rest)))
    (hu : σ.length + 1 ≤ maxNesting → Crosses (b :: σ) u n) :
    Crosses σ (v ++ (u ++ [b.close])) (n + 1) := by
  intro flag rest
  rw [List.append_assoc, List.append_assoc, hopen, Scanner.enter]
  by_cases hfull : σ.length = maxNesting
  · rw [if_pos hfull, if_neg (by omega)]
    rfl
  · have hroom : σ.length + 1 ≤ maxNesting := by omega
    have hclose : Scanner.run ⟨b :: σ, true⟩ (b.close :: rest) = Scanner.run ⟨σ, true⟩ rest := by
      rw [Scanner.run_cons, Scanner.step_close]
      simp [Scanner.leave, resume]
    rw [if_neg hfull]
    change Scanner.run ⟨b :: σ, false⟩ (u ++ ([b.close] ++ rest)) = _
    rw [hu hroom, List.singleton_append, hclose, List.length_cons, Nat.add_assoc, Nat.add_comm 1]

end Crosses

theorem crosses_spellingOfAll (hne : ps ≠ []) (h : ∀ p ∈ ps, Crosses σ p.spelling p.nesting) :
    Crosses σ (spellingOfAll ps) (nestingOfAll ps) := by
  induction ps with
  | nil => exact absurd rfl hne
  | cons p ps ih =>
    obtain ⟨hp, hps⟩ := List.forall_mem_cons.mp h
    cases ps with
    | nil => simpa [spellingOfAll, nestingOfAll] using hp
    | cons q ps => exact hp.append (ih (List.cons_ne_nil q ps) hps)

theorem crosses_spellingOfBranches (hne : ps ≠ [])
    (h : ∀ p ∈ ps, Crosses σ p.spelling p.nesting) :
    Crosses σ (spellingOfBranches ps) (nestingOfAll ps) := by
  induction ps with
  | nil => exact absurd rfl hne
  | cons p ps ih =>
    obtain ⟨hp, hps⟩ := List.forall_mem_cons.mp h
    cases ps with
    | nil => simpa [spellingOfBranches, nestingOfAll] using hp
    | cons q ps => exact hp.bar (ih (List.cons_ne_nil q ps) hps)

/-- References take no level of brackets. -/
theorem crosses_reference {sigil : Char} {c : Char} (hσ : σ.length ≤ maxNesting) (hc : c.isDigit)
    (hopen : ∀ flag rest, Scanner.run ⟨σ, flag⟩ ('(' :: sigil :: c :: ')' :: rest) =
      resume (Scanner.reference ⟨σ, flag⟩ sigil (c :: ')' :: rest))) :
    Crosses σ ['(', sigil, c, ')'] 0 := by
  intro flag rest
  rw [Nat.add_zero, if_pos hσ]
  exact (hopen flag rest).trans (congrArg resume (Scanner.reference_close hc))

theorem crosses_spelling (h : p.IsCanonical) (hσ : σ.length ≤ maxNesting) :
    Crosses σ p.spelling p.nesting := by
  induction p using childrenInduction generalizing σ with
  | node p ih =>
    have hbelow : ∀ q ∈ p.children, ∀ τ : List Bracket, τ.length ≤ maxNesting →
        Crosses τ q.spelling q.nesting := fun q hq τ hτ => ih q hq (h.of_mem_children hq) hτ
    cases p with
    | char c =>
      intro flag rest
      have hc : c ∉ ['|', ')', '>', '<', '('] := by
        simp only [IsCanonical, delimiters, List.mem_cons, List.not_mem_nil] at h ⊢
        grind
      rw [nesting, Nat.add_zero, if_pos hσ, spelling, List.singleton_append, Scanner.run_cons,
        Scanner.step_char hc]
      rfl
    | concat ps =>
      have hlen : 2 ≤ ps.length := h.1
      exact crosses_spellingOfAll (List.ne_nil_of_length_pos (by omega)) fun p hp =>
        hbelow p hp σ hσ
    | alt ps =>
      have hlen : 2 ≤ ps.length := h.1
      exact crosses_spellingOfBranches (List.ne_nil_of_length_pos (by omega)) fun p hp =>
        hbelow p hp σ hσ
    | star p min max =>
      have hbody : σ.length + 1 ≤ maxNesting → Crosses (.star :: σ) p.spelling p.nesting :=
        hbelow p List.mem_cons_self (.star :: σ)
      exact .enclose (u := p.spelling) (v := ['<']) hσ (fun _ _ => Scanner.run_cons) hbody
    | group id p =>
      have hbody : σ.length + 1 ≤ maxNesting → Crosses (.group :: σ) p.spelling p.nesting :=
        hbelow p List.mem_cons_self (.group :: σ)
      cases id with
      | none =>
        exact .enclose (u := p.spelling) (v := ['(', '?', ':']) hσ (fun _ _ => Scanner.run_cons)
          hbody
      | some id =>
        refine .enclose (u := p.spelling) (v := ['(']) hσ (fun flag rest => ?_) hbody
        -- The body of the group does not begin as a reference or a plain group would go on.
        have hhead : ∀ c ∈ (p.spelling ++ rest).head?, c ≠ '?' ∧ c ≠ '\\' := by
          rw [head?_spelling_append h.1]
          exact h.2 rfl
        rw [List.singleton_append, Scanner.run_cons, Scanner.step_group]
        · intro cs hcs
          exact (hhead '\\' (by rw [hcs]; rfl)).2 rfl
        · intro cs hcs
          exact (hhead '?' (by rw [hcs]; rfl)).1 rfl
    | exprRef id =>
      obtain ⟨c, hc, rfl⟩ := exists_digit h
      rw [spelling, toList_toString_digitValue hc]
      refine crosses_reference hσ hc fun flag rest => ?_
      rw [Scanner.run_cons, Scanner.step_exprRef]
      rintro cs hcs
      cases hcs
      cases hc
    | strRef id =>
      obtain ⟨c, hc, rfl⟩ := exists_digit h
      rw [spelling, toList_toString_digitValue hc]
      exact crosses_reference hσ hc fun _ _ => Scanner.run_cons

/-! ### Whole texts -/

/-- Repetitions nested `n` deep, with an alternative and a sequence around each and inside the
innermost. -/
def tower : Nat → Pattern
  | 0 => .alt [.concat [.char 'a', .char 'b'], .char 'c']
  | n + 1 => .alt [.concat [.many (tower n), .char 'b'], .char 'c']

theorem isCanonical_tower (n : Nat) : (tower n).IsCanonical := by
  induction n with
  | zero => simp [tower, IsCanonical, AllCanonical, delimiters]
  | succ n ih => simp [tower, many, IsCanonical, AllCanonical, delimiters, ih]

theorem nesting_tower (n : Nat) : (tower n).nesting = n := by
  induction n with
  | zero => rfl
  | succ n ih => simp [tower, many, nesting, nestingOfAll, ih]

theorem captures_tower (n : Nat) : (tower n).captures = [] := by
  induction n with
  | zero => rfl
  | succ n ih =>
    have hmany : (many (tower n)).captures = (tower n).captures := by
      rw [captures_eq]
      exact capturesOfAll_singleton
    have hnil : capturesOfAll [] = [] := rfl
    simp [tower, captures_eq (alt _), captures_eq (concat _), captures_eq (char _), captureId?,
      children, capturesOfAll_cons, hnil, hmany, ih]

/-- Ways can be as long as their brackets allow. -/
theorem exists_isPath_tower (n : Nat) : ∃ path, (tower n).IsPath path ∧
    path.countP isBracket = n ∧ path.length = 3 * n + 3 := by
  induction n with
  | zero =>
    exact ⟨_, .step List.mem_cons_self (.step List.mem_cons_self (.leaf rfl)), rfl, rfl⟩
  | succ n ih =>
    obtain ⟨path, hpath, hcount, hlen⟩ := ih
    refine ⟨_, .step List.mem_cons_self (.step List.mem_cons_self
      (.step List.mem_cons_self hpath)), ?_, ?_⟩
    · rw [List.countP_cons, List.countP_cons, List.countP_cons, hcount]
      rfl
    · rw [List.length_cons, List.length_cons, List.length_cons, hlen]
      omega

theorem parse_tower {n : Nat} (hn : n ≤ maxNesting) :
    parse (String.ofList (tower n).spelling) = .ok ⟨tower n, (tower n).postorder, 1⟩ := by
  have hfits : (tower n).Fits maxNesting := ⟨isCanonical_tower n, (nesting_tower n).symm ▸ hn⟩
  refine parse_eq_ok.mpr ⟨hfits, String.toList_ofList.symm, ?_, rfl, ?_⟩
  · rw [captures_tower]
    trivial
  · rw [captures_tower]
    rfl

/-- A tree that is read has at most 256 groups and repetitions on any way from its root to a leaf,
and at most 771 nodes. The text of a tree that has more groups and repetitions on some way, and
would be read otherwise, is refused for that. -/
theorem parse_nesting :
    (∀ s r, parse s = .ok r → ∀ path, r.root.IsPath path →
      path.countP isBracket ≤ 256 ∧ path.length ≤ 771) ∧
    ∀ p : Pattern, p.IsCanonical → (∃ path, p.IsPath path ∧ 256 < path.countP isBracket) →
      parse (String.ofList p.spelling) = .error .tooDeep := by
  constructor
  · intro s r h path hpath
    obtain ⟨⟨hcanon, hnest⟩, -⟩ := parse_eq_ok.mp h
    have hbrackets : path.countP isBracket ≤ 256 :=
      Nat.le_trans (countP_isBracket_le_nesting hpath) hnest
    have hlen := length_le_of_isPath hcanon hpath
    have hroot := r.root.layers_le
    exact ⟨hbrackets, by omega⟩
  · rintro p hp ⟨path, hpath, hdeep⟩
    have hlimit : ([] : List Bracket).length ≤ maxNesting := Nat.zero_le _
    have hnest : ¬ ([] : List Bracket).length + p.nesting ≤ maxNesting := by
      have hle := countP_isBracket_le_nesting hpath
      simp only [List.length_nil, maxNesting]
      omega
    have hrun := crosses_spelling hp hlimit false []
    rw [List.append_nil, if_neg hnest] at hrun
    rw [parse_eq_error, String.toList_ofList]
    exact hrun

/-- A tower of 256 repetitions is read and meets both bounds, and one of 257 is refused. -/
theorem parse_nesting_tower :
    (∃ r, parse (String.ofList (tower 256).spelling) = .ok r ∧ r.root = tower 256 ∧
      (∃ path, r.root.IsPath path ∧ path.countP isBracket = 256 ∧ path.length = 771) ∧
      ∀ path, r.root.IsPath path → path.countP isBracket ≤ 256 ∧ path.length ≤ 771) ∧
    (tower 257).IsCanonical ∧ (∃ path, (tower 257).IsPath path ∧ 256 < path.countP isBracket) ∧
      parse (String.ofList (tower 257).spelling) = .error .tooDeep := by
  have hparse := parse_tower (Nat.le_refl 256)
  have hbounds := parse_nesting.1 _ _ hparse
  obtain ⟨path, hpath, hcount, hlen⟩ := exists_isPath_tower 256
  obtain ⟨path', hpath', hcount', -⟩ := exists_isPath_tower 257
  have hdeep : ∃ path, (tower 257).IsPath path ∧ 256 < path.countP isBracket :=
    ⟨path', hpath', by omega⟩
  exact ⟨⟨_, hparse, rfl, ⟨path, hpath, hcount, hlen⟩, hbounds⟩, isCanonical_tower 257, hdeep,
    parse_nesting.2 _ (isCanonical_tower 257) hdeep⟩

end CaptureGrammar.Pattern
