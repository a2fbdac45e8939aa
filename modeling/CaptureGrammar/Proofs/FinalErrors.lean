import CaptureGrammar.Proofs.Verdict

/-!
Errors that no further text can undo.

The machine meets the same characters in front of more text. Only where it looks ahead at the end of
the text, or is asked for its verdict there, can more text change what it does.
-/
namespace CaptureGrammar.Pattern

variable {b : Bracket} {c sigil : Char} {cs ds rest : List Char} {e : Error} {s t : String}

/-- Whether the error that is found in the text `cs` is found whatever stands behind the text. -/
def Error.IsFinal (cs : List Char) : Error → Prop
  | .unclosedGroup | .unclosedRepetition => False
  | .unmatchedClose _ | .unrecognizedAtom _ => True
  | .tooDeep => cs.getLast? ≠ some '('
  | .emptyExpression => cs ≠ [] ∧ cs.getLast? ≠ some '|'

theorem Error.IsFinal.of_suffix (h : e.IsFinal cs) (hs : rest <:+ cs) (hne : rest ≠ []) :
    e.IsFinal rest := by
  obtain ⟨u, rfl⟩ := hs
  have hlast : (u ++ rest).getLast? = rest.getLast? := by
    rw [List.getLast?_append, List.getLast?_eq_some_getLast hne]
    rfl
  cases e with
  | unclosedGroup | unclosedRepetition => exact h
  | unmatchedClose | unrecognizedAtom => trivial
  | tooDeep => exact fun heq => h (hlast.trans heq)
  | emptyExpression => exact ⟨hne, fun heq => h.2 (hlast.trans heq)⟩

namespace Scanner

variable {m n : Scanner}

/-! ### One step -/

/-- The outcome of a step, with more text behind what is left. -/
def extend (ds : List Char) (out : Except Error (Scanner × List Char)) :
    Except Error (Scanner × List Char) := out.map fun (m, rest) => (m, rest ++ ds)

theorem enter_append : m.enter b (cs ++ ds) = extend ds (m.enter b cs) := by
  simp only [enter]
  split <;> rfl

theorem leave_append : m.leave c (cs ++ ds) = extend ds (m.leave c cs) := by
  simp only [leave]
  split
  · split
    · rfl
    · split <;> rfl
  · rfl

theorem reference_append (h : m.reference sigil cs ≠ .error .unclosedGroup) :
    m.reference sigil (cs ++ ds) = extend ds (m.reference sigil cs) := by
  rcases cs with _ | ⟨c, cs⟩
  · exact absurd rfl h
  · by_cases hc : c.isDigit
    · by_cases hclose : ∃ rest, cs = ')' :: rest
      · obtain ⟨rest, rfl⟩ := hclose
        rw [reference_close hc, List.cons_append, List.cons_append, reference_close hc]
        rfl
      · exact absurd (reference_unclosed hc fun rest heq => hclose ⟨rest, heq⟩) h
    · simp only [List.cons_append, reference, hc]
      rfl

/-- Behind `(` the machine looks at two characters, and the second is there unless what it has met
is an open reference. -/
theorem step_paren_append (hcs : cs ≠ []) (h : m.step '(' cs ≠ .error .unclosedGroup) :
    m.step '(' (cs ++ ds) = extend ds (m.step '(' cs) := by
  obtain ⟨d, cs, rfl⟩ := List.exists_cons_of_ne_nil hcs
  by_cases hb : d = '\\'
  · subst hb
    exact reference_append h
  · by_cases hq : d = '?'
    · subst hq
      rcases cs with _ | ⟨x, cs⟩
      · exact absurd rfl h
      · by_cases hx : x = ':'
        · subst hx
          exact enter_append
        · have hplain : ∀ (us vs : List Char), x :: us ≠ ':' :: vs :=
            fun _ _ heq => hx (List.cons.inj heq).1
          rw [step_exprRef (hplain _)] at h ⊢
          rw [List.cons_append, List.cons_append, step_exprRef (hplain _)]
          exact reference_append h
    · have hgroup : ∀ us : List Char, m.step '(' (d :: us) = m.enter .group (d :: us) :=
        fun us => step_group (fun _ heq => hb (List.cons.inj heq).1)
          (fun _ heq => hq (List.cons.inj heq).1)
      rw [List.cons_append, hgroup, hgroup, ← List.cons_append]
      exact enter_append

theorem step_append (hc : c = '(' → cs ≠ []) (h : m.step c cs ≠ .error .unclosedGroup) :
    m.step c (cs ++ ds) = extend ds (m.step c cs) := by
  by_cases hplain : c ∈ ['|', ')', '>', '<', '(']
  · simp only [List.mem_cons, List.not_mem_nil, or_false] at hplain
    rcases hplain with rfl | rfl | rfl | rfl | rfl
    · simp only [step]
      split <;> rfl
    · exact leave_append
    · exact leave_append
    · exact enter_append
    · exact step_paren_append (hc rfl) h
  · rw [step_char hplain, step_char hplain]
    rfl

/-! ### Runs -/

theorem stack_of_enter (h : m.enter b cs = .ok (n, rest)) : n.stack = b :: m.stack := by
  simp only [enter] at h
  split at h <;> cases h
  rfl

theorem hasAtom_of_leave (h : m.leave c cs = .ok (n, rest)) : n.hasAtom = true := by
  simp only [leave] at h
  split at h
  · split at h
    · cases h
    · split at h <;> cases h
      rfl
  · cases h

theorem hasAtom_of_reference (h : m.reference sigil cs = .ok (n, rest)) : n.hasAtom = true := by
  simp only [reference] at h
  split at h
  · cases h
  · split at h
    · split at h <;> cases h
      rfl
    · cases h

/-- Only a bar leaves the machine outside all brackets and without an atom. -/
theorem bar_of_step (h : m.step c cs = .ok (n, rest)) (hs : n.stack = [])
    (ha : n.hasAtom = false) : c = '|' ∧ rest = cs := by
  have hopen : ∀ {b us}, m.enter b us ≠ .ok (n, rest) := by
    intro b us hn
    rw [stack_of_enter hn] at hs
    cases hs
  have hatom : n.hasAtom ≠ true := Bool.eq_false_iff.mp ha
  simp only [step] at h
  split at h
  · split at h <;> cases h
    exact ⟨rfl, rfl⟩
  · exact absurd (hasAtom_of_leave h) hatom
  · exact absurd (hasAtom_of_leave h) hatom
  · exact absurd h hopen
  · exact absurd (hasAtom_of_reference h) hatom
  · exact absurd h hopen
  · exact absurd (hasAtom_of_reference h) hatom
  · exact absurd h hopen
  · cases h
    cases ha

theorem not_isFinal_of_finish (h : m.finish = .error e) : ¬ e.IsFinal [] := by
  simp only [finish] at h
  split at h
  · next b _ _ =>
    cases h
    cases b <;> exact id
  · split at h <;> cases h
    exact fun hfinal => hfinal.1 rfl

/-- What is wrong after a step, and stays wrong, is found in the text that is left. -/
theorem isFinal_of_step (h : m.step c cs = .ok (n, rest)) (hrun : n.run rest = .error e)
    (he : e.IsFinal (c :: cs)) : e.IsFinal rest := by
  refine he.of_suffix ((suffix_of_step h).trans (List.suffix_cons c cs)) ?_
  rintro rfl
  rw [run_nil, finish] at hrun
  split at hrun
  · next b _ _ =>
    cases hrun
    cases b <;> exact he
  · next hs =>
    split at hrun <;> cases hrun
    next ha =>
      obtain ⟨rfl, rfl⟩ := bar_of_step h hs (Bool.not_eq_true _ ▸ ha)
      exact he.2 rfl

theorem run_append (h : m.run cs = .error e) (he : e.IsFinal cs) :
    m.run (cs ++ ds) = .error e := by
  fun_induction run m cs with
  | case1 m => exact absurd he (not_isFinal_of_finish h)
  | case2 m c cs e' hstep =>
    cases h
    have hc : c = '(' → cs ≠ [] := by
      rintro rfl rfl
      simp only [step, enter] at hstep
      split at hstep <;> cases hstep
      exact he rfl
    have hne : m.step c cs ≠ .error .unclosedGroup := by
      rw [hstep]
      rintro ⟨⟩
      exact he
    rw [List.cons_append, run_cons, step_append hc hne, hstep]
    rfl
  | case3 m c cs n rest hstep ih =>
    have hfinal := isFinal_of_step hstep h he
    have hc : c = '(' → cs ≠ [] := by
      rintro - rfl
      rw [List.suffix_nil.mp (suffix_of_step hstep)] at h hfinal
      exact not_isFinal_of_finish (run_nil ▸ h) hfinal
    have hne : m.step c cs ≠ .error .unclosedGroup := by
      rw [hstep]
      rintro ⟨⟩
    rw [List.cons_append, run_cons, step_append hc hne, hstep]
    exact ih h hfinal

end Scanner

/-! ### Reading -/

/-- Reading a whole text ends as the machine does. -/
theorem run_readAll (cs : List Char) : Scanner.run {} cs =
    match readAll cs with
    | .ok _ _ => .ok ()
    | .error e _ => .error e := by
  have h := settles_expression (s := { rest := cs }) (followsBody_interior maxNesting [] rfl)
  simp only [readAll]
  cases hx : expression (interior maxNesting) { rest := cs } with
  | error e u =>
    rw [hx, SettlesTo] at h
    split at h
    · next he => rw [h, he.1]; rfl
    · exact h
  | ok p u =>
    rw [hx] at h
    rcases exists_close_of_endsExpression h.2 with hend | ⟨b, rest, hend⟩
    · rw [h.1]
      simp only [hend, Scanner.run_nil]
      rfl
    · rw [h.1]
      simp only [hend, Scanner.run_cons, Scanner.step_close]
      rfl

theorem parse_eq_error : parse s = .error e ↔ Scanner.run {} s.toList = .error e := by
  rw [run_readAll, parse]
  split <;> simp_all

/-- A text that is refused with a final error is refused with it whatever text follows. -/
theorem parse_append_of_isFinal (h : parse s = .error e) (he : e.IsFinal s.toList) :
    parse (s ++ t) = .error e := by
  rw [parse_eq_error, String.toList_append]
  exact Scanner.run_append (parse_eq_error.mp h) he

/-- A branch that is found empty at the parenthesis behind it, and what is no pattern either. -/
theorem parse_append_of_isFinal_empty_branch :
    parse "(a|)" = .error .emptyExpression ∧
      Error.IsFinal "(a|)".toList .emptyExpression ∧
      parse ("(a|)" ++ "b<(?c") = .error .emptyExpression := by
  have hrun : Scanner.run {} "(a|)".toList = .error .emptyExpression := by
    simp [Scanner.run_cons, Scanner.resume, Scanner.step, Scanner.enter, Scanner.leave, maxNesting]
  have hparse : parse "(a|)" = .error .emptyExpression := parse_eq_error.mpr hrun
  have hfinal : Error.IsFinal "(a|)".toList .emptyExpression := ⟨by decide, by decide⟩
  exact ⟨hparse, hfinal, parse_append_of_isFinal hparse hfinal⟩

end CaptureGrammar.Pattern
