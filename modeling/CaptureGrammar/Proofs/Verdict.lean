import CaptureGrammar.Pattern.Parsed
import CaptureGrammar.Proofs.Scanner

/-!
Reading gives the verdict of the stack machine, on patterns and on all other texts.

The machine runs beside the reader. When a part has been read, the machine stands behind it with the
same brackets open; when reading fails, the machine fails alike. Only an expression that the end of
the text leaves empty is no error of its own: the bracket around it decides.
-/
namespace CaptureGrammar.Pattern

open Scanner (resume)

variable {α : Type} {σ : List Bracket} {flag : Bool} {s t : Cursor} {e : Error} {b : Bracket}
  {id : Option GroupId} {sigil : Char} {refer : GroupId → Pattern}
  {out : Except Error Unit} {body : Body}

/-- The machine's verdict `out` is that of the reading, and stands or falls with the text that is
left inside the brackets `σ`. -/
def Settles (σ : List Bracket) (out : Except Error Unit) : EStateM.Result Error Cursor α → Prop
  | .ok _ t => out = Scanner.run ⟨σ, true⟩ t.rest
  | .error e t => out = .error e ∧ ¬ (e = .emptyExpression ∧ t.rest = [])

/-- As `Settles`, for what goes on to one of the `ends`. If the end of the text comes before an atom
does, the verdict is left to the brackets around. -/
def SettlesTo (ends : List Char → Prop) (σ : List Bracket) (out : Except Error Unit) :
    EStateM.Result Error Cursor α → Prop
  | .ok _ t => out = Scanner.run ⟨σ, true⟩ t.rest ∧ ends t.rest
  | .error e t =>
    if e = .emptyExpression ∧ t.rest = [] then out = Scanner.finish ⟨σ, false⟩ else out = .error e

theorem Bracket.unclosed_ne_emptyExpression : b.unclosed ≠ .emptyExpression := by
  cases b <;> decide

theorem settles_reference : Settles σ (resume (Scanner.reference ⟨σ, flag⟩ sigil s.rest))
    (reference sigil refer s) := by
  obtain ⟨rest, i, done, opened⟩ := s
  cases rest with
  | nil => exact ⟨rfl, fun h => by cases h.1⟩
  | cons c cs =>
    by_cases hc : c.isDigit
    · simp only [reference, hc, if_true]
      split
      · rw [Scanner.reference_close hc]
        rfl
      · next hne =>
        rw [Scanner.reference_unclosed hc hne]
        exact ⟨rfl, fun h => by cases h.1⟩
    · simp only [reference, Scanner.reference, hc]
      exact ⟨rfl, fun h => by cases h.1⟩

/-- A body in brackets of its own is settled, as an end of the text in it is theirs to report. -/
theorem settles_enclosed {r : Reader Pattern}
    (h : SettlesTo (endsExpression · = true) (b :: σ) out (r s)) :
    Settles σ out (enclosed r b.close b.unclosed s) := by
  simp only [enclosed]
  split
  · next e t hr =>
    rw [hr] at h
    simp only [SettlesTo] at h
    split at h
    · next he =>
      rw [if_pos he]
      exact ⟨h, fun hu => Bracket.unclosed_ne_emptyExpression hu.1⟩
    · next he =>
      rw [if_neg he]
      exact ⟨h, he⟩
  · next p t hr =>
    rw [hr] at h
    obtain ⟨rfl, hends⟩ := h
    -- The machine is still inside `b`: the text ends there, or the next character closes something.
    rcases exists_close_of_endsExpression hends with hend | ⟨d, rest, hend⟩
    · rw [hend, Scanner.run_nil]
      exact ⟨rfl, fun hu => Bracket.unclosed_ne_emptyExpression hu.1⟩
    · rw [hend, Scanner.run_cons, Scanner.step_close]
      simp only [Scanner.leave, if_true]
      split
      · rfl
      · exact ⟨rfl, fun hu => Bracket.unclosed_ne_emptyExpression hu.1⟩

/-- What is built from the body and recorded makes no difference to the machine. -/
theorem settles_finish {r : Reader Pattern} {f : Pattern → Pattern} (h : Settles σ out (r s)) :
    Settles σ out ((do finish (f (← r)) : Reader Pattern) s) := by
  simp only [bind, EStateM.bind]
  split
  · next hr =>
    rw [hr] at h
    exact h
  · next hr =>
    rw [hr] at h
    exact h

theorem settles_groupBody {r : Reader Pattern}
    (h : Settles σ out (enclosed r Bracket.group.close Bracket.group.unclosed s)) :
    Settles σ out (groupBody r id s) := settles_finish h

theorem settles_starBody {r : Reader Pattern}
    (h : Settles σ out (enclosed r Bracket.star.close Bracket.star.unclosed s)) :
    Settles σ out (starBody r s) := settles_finish h

/-- The reader for the inside of brackets goes with the machine when it opens any of them. -/
def FollowsBody (σ : List Bracket) (r : Reader Pattern) : Prop :=
  ∀ (s : Cursor) (flag : Bool) (b : Bracket),
    Settles σ (resume (Scanner.enter ⟨σ, flag⟩ b s.rest)) (enclosed r b.close b.unclosed s)

theorem settles_atom {r : Reader Pattern} (flag : Bool) (hr : FollowsBody σ r)
    (hs : endsSequence s.rest = false) :
    Settles σ (Scanner.run ⟨σ, flag⟩ s.rest) (atom r s) := by
  simp only [atom]
  split
  · next hrest =>
    rw [hrest] at hs
    cases hs
  · next rest hrest =>
    rw [hrest, Scanner.run_cons]
    exact settles_reference (s := { s with rest })
  · next rest hrest =>
    rw [hrest, Scanner.run_cons]
    exact settles_groupBody (hr { s with rest } flag .group)
  · next rest hne hrest =>
    rw [hrest, Scanner.run_cons, Scanner.step_exprRef hne]
    exact settles_reference (s := { s with rest })
  · next rest hb _ hq hrest =>
    rw [hrest, Scanner.run_cons, Scanner.step_group hb hq]
    exact settles_groupBody (hr { s with rest, nextId := _, opened := _ } flag .group)
  · next rest hrest =>
    rw [hrest, Scanner.run_cons]
    exact settles_starBody (hr { s with rest } flag .star)
  · next c rest _ _ _ hp hl hrest =>
    rw [hrest] at hs ⊢
    rw [Scanner.run_cons, Scanner.step_char]
    · rfl
    · simp only [endsSequence, Bool.or_eq_false_iff, beq_eq_false_iff_ne, ne_eq] at hs
      simp only [List.mem_cons, List.not_mem_nil, or_false, not_or]
      exact ⟨hs.1.1, hs.1.2, hs.2, hl, hp⟩

/-! ### Sequences and expressions -/

/-- Reading atoms goes on to the end of the sequence, and the machine marks whether there were
any. -/
theorem settles_atoms (flag : Bool) (hr : FollowsBody σ body.read) :
    match atoms body s with
    | .ok ps t => endsSequence t.rest = true ∧
        Scanner.run ⟨σ, flag⟩ s.rest = Scanner.run ⟨σ, flag || !ps.isEmpty⟩ t.rest
    | .error e t =>
      Scanner.run ⟨σ, flag⟩ s.rest = .error e ∧ ¬ (e = .emptyExpression ∧ t.rest = []) := by
  fun_induction atoms body s generalizing flag with
  | case1 s hs => simpa using hs
  | case2 s hs e t ht =>
    have h := settles_atom flag hr (Bool.not_eq_true _ ▸ hs)
    rw [ht] at h
    exact h
  | case3 s hs p t ht e u hu ih =>
    have h := settles_atom flag hr (Bool.not_eq_true _ ▸ hs)
    rw [ht] at h
    have hrest := ih true
    rw [hu] at hrest
    exact ⟨h.trans hrest.1, hrest.2⟩
  | case4 s hs p t ht ps u hu ih =>
    have h := settles_atom flag hr (Bool.not_eq_true _ ▸ hs)
    rw [ht] at h
    have hrest := ih true
    rw [hu] at hrest
    exact ⟨hrest.1, by simpa using h.trans hrest.2⟩

theorem settles_sequence (hr : FollowsBody σ body.read) :
    SettlesTo (endsSequence · = true) σ (Scanner.run ⟨σ, false⟩ s.rest) (sequence body s) := by
  have h := settles_atoms (s := s) false hr
  simp only [sequence]
  split <;> rename_i ht <;> rw [ht] at h
  · next e t =>
    simp only [SettlesTo, h.2, if_false]
    exact h.1
  · next t =>
    obtain ⟨hends, hrun⟩ : endsSequence t.rest = true ∧
      Scanner.run ⟨σ, false⟩ s.rest = Scanner.run ⟨σ, false⟩ t.rest := h
    simp only [SettlesTo, true_and, hrun]
    split
    · next hend => rw [hend, Scanner.run_nil]
    · next hend =>
      rcases endsSequence_iff.mp hends with hends | ⟨rest, hbar⟩
      · rcases exists_close_of_endsExpression hends with hnil | ⟨b, rest, hb⟩
        · exact (hend hnil).elim
        · rw [hb, Scanner.run_cons, Scanner.step_close]
          rfl
      · rw [hbar, Scanner.run_cons]
        rfl
  · exact ⟨h.2, h.1⟩
  · exact ⟨h.2, h.1⟩

/-- Behind a bar the machine starts over. -/
theorem run_of_bar {p : Pattern} {rest : List Char} (hr : FollowsBody σ body.read)
    (ht : sequence body s = .ok p t) (hbar : t.rest = '|' :: rest) :
    Scanner.run ⟨σ, false⟩ s.rest = Scanner.run ⟨σ, false⟩ rest := by
  have h := settles_sequence (s := s) hr
  rw [ht] at h
  rw [h.1, hbar, Scanner.run_cons]
  rfl

theorem settles_branches (hr : FollowsBody σ body.read) :
    SettlesTo (endsExpression · = true) σ (Scanner.run ⟨σ, false⟩ s.rest) (branches body s) := by
  fun_induction branches body s with
  | case1 s e t ht =>
    have h := settles_sequence (s := s) hr
    rwa [ht] at h
  | case2 s p t ht rest hbar e u hu ih =>
    rw [hu] at ih
    rw [run_of_bar hr ht hbar]
    exact ih
  | case3 s p t ht rest hbar ps u hu ih =>
    rw [hu] at ih
    rw [run_of_bar hr ht hbar]
    exact ih
  | case4 s p t ht hbar =>
    have h := settles_sequence (s := s) hr
    rw [ht] at h
    rcases endsSequence_iff.mp h.2 with hend | ⟨rest, hrest⟩
    · exact ⟨h.1, hend⟩
    · exact (hbar rest hrest).elim

theorem settles_expression (hr : FollowsBody σ body.read) :
    SettlesTo (endsExpression · = true) σ (Scanner.run ⟨σ, false⟩ s.rest) (expression body s) := by
  have h := settles_branches (s := s) hr
  simp only [expression]
  split <;> rename_i ht <;> rw [ht] at h
  · exact h
  · exact h
  · exact h

/-- The levels that are left to the reader are those that the stack has room for. -/
theorem followsBody_interior (n : Nat) :
    ∀ σ : List Bracket, σ.length + n = maxNesting → FollowsBody σ (interior n).read := by
  induction n with
  | zero =>
    intro σ hσ s flag b
    simp only [Scanner.enter, show σ.length = maxNesting from hσ, if_true]
    exact ⟨rfl, fun h => by cases h.1⟩
  | succ n ih =>
    intro σ hσ s flag b
    have hne : σ.length ≠ maxNesting := by omega
    simp only [Scanner.enter, if_neg hne]
    apply settles_enclosed
    exact settles_expression (ih (b :: σ) (by rw [List.length_cons]; omega))

/-- Reading succeeds on just the texts that the machine accepts, and its error on any other text is
the machine's. -/
theorem parse_verdict (s : String) : (parse s).map (fun _ => ()) = Scanner.run {} s.toList := by
  have h := settles_expression (s := { rest := s.toList }) (followsBody_interior maxNesting [] rfl)
  cases hx : expression (interior maxNesting) { rest := s.toList } with
  | error e t =>
    rw [hx] at h
    simp only [parse, readAll, hx]
    simp only [SettlesTo] at h
    split at h
    · next he =>
      rw [he.1]
      exact h.symm
    · exact h.symm
  | ok p t =>
    rw [hx] at h
    simp only [parse, readAll, hx]
    obtain ⟨hrun, hends⟩ := h
    rcases exists_close_of_endsExpression hends with hend | ⟨b, rest, hend⟩
    · simp only [hend] at hrun ⊢
      rw [hrun, Scanner.run_nil]
      rfl
    · simp only [hend] at hrun ⊢
      rw [hrun, Scanner.run_cons, Scanner.step_close]
      rfl

end CaptureGrammar.Pattern
