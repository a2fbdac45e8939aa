import CaptureGrammar.Proofs.AtomReading

/-!
Reading with a count of the open brackets.

The count goes up in front of the body of a bracket and down again behind it, and no bracket may be
opened where it has reached `maxNesting`. A reader that succeeds leaves the count as it was, so that
reading can do without it, if it is told instead how many levels of brackets are left.
-/
namespace CaptureGrammar.Pattern

/-- Where reading stands: the cursor, and how many brackets are open. -/
structure Position extends Cursor where
  depth : Nat
  depth_le : depth ≤ maxNesting

namespace Position

/-- How many more brackets may be opened, one inside the other. -/
def levels (s : Position) : Nat := maxNesting - s.depth

/-- The position inside a bracket. -/
def deeper (s : Position) (h : s.depth ≠ maxNesting) : Position :=
  { s with depth := s.depth + 1, depth_le := Nat.lt_of_le_of_ne s.depth_le h }

/-- The position outside the bracket that was opened last. -/
def shallower (s : Position) : Position :=
  { s with depth := s.depth - 1, depth_le := Nat.le_trans (Nat.sub_le _ _) s.depth_le }

/-- What comes of a success with the count of `s`. -/
def keep {α : Type} (s : Position) : EStateM.Result Error Cursor α → Option (α × Position)
  | .ok a t => some (a, { s with toCursor := t })
  | .error .. => none

end Position

/-- A reader that keeps the count in its state. Of its failures nothing is told. -/
abbrev CountingReader (α : Type) := Position → Option (α × Position)

namespace CountingReader

/-- A reader that opens no bracket. -/
def flat {α : Type} (r : Reader α) : CountingReader α := fun s => s.keep (r s.toCursor)

/-! The two loops go on only where text has been taken. Atoms and sequences always take some. -/

mutual

def expression (s : Position) : Option (Pattern × Position) := do
  match ← branches s with
  | ([p], t) => some (p, t)
  | (ps, t) => flat (finish (.alt ps)) t
termination_by (s.rest.length, 4)

def branches (s : Position) : Option (List Pattern × Position) := do
  let (p, t) ← sequence s
  match t.rest with
  | '|' :: rest =>
    if _h : rest.length < s.rest.length then
      let (ps, u) ← branches { t with rest }
      some (p :: ps, u)
    else none
  | _ => some ([p], t)
termination_by (s.rest.length, 3)

def sequence (s : Position) : Option (Pattern × Position) := do
  match ← atoms s with
  | ([], _) => none
  | ([p], t) => some (p, t)
  | (ps, t) => flat (finish (.concat ps)) t
termination_by (s.rest.length, 2)

def atoms (s : Position) : Option (List Pattern × Position) :=
  if endsSequence s.rest then some ([], s)
  else do
    let (p, t) ← atom s
    if _h : t.rest.length < s.rest.length then
      let (ps, u) ← atoms t
      some (p :: ps, u)
    else none
termination_by (s.rest.length, 1)

def atom (s : Position) : Option (Pattern × Position) :=
  match _h : s.rest with
  | [] => none
  | '(' :: '\\' :: rest => flat (reference '\\' .strRef) { s with rest }
  | '(' :: '?' :: ':' :: rest => bracket ')' (.group none) { s with rest }
  | '(' :: '?' :: rest => flat (reference '?' .exprRef) { s with rest }
  | '(' :: rest =>
    bracket ')' (.group (some s.nextId))
      { s with rest, nextId := s.nextId + 1, opened := s.nextId :: s.opened }
  | '<' :: rest => bracket '>' .many { s with rest }
  | c :: rest => flat (finish (.char c)) { s with rest }
termination_by (s.rest.length, 0)
decreasing_by
  all_goals
    simp only [_h, List.length_cons, Prod.lex_def]
    omega

/-- Reads a body and `close` behind it, and makes `f` of the body. -/
def bracket (close : Char) (f : Pattern → Pattern) (s : Position) :
    Option (Pattern × Position) := do
  let (p, t) ← inside s
  match t.rest with
  | [] => none
  | c :: rest => if c = close then flat (finish (f p)) { t with rest } else none
termination_by (s.rest.length, 6)

/-- Reads a body, one bracket deeper. -/
def inside (s : Position) : Option (Pattern × Position) :=
  if h : s.depth = maxNesting then none
  else do
    let (p, t) ← expression (s.deeper h)
    some (p, t.shallower)
termination_by (s.rest.length, 5)

end

end CountingReader

variable {α : Type} {n : Nat} {body : Body} {s t : Position}

theorem keep_eq_some_iff {a : α} {out : EStateM.Result Error Cursor α} :
    s.keep out = some (a, t) ↔ out = .ok a t.toCursor ∧ t.depth = s.depth := by
  obtain ⟨t, k, hk⟩ := t
  cases out with
  | error e u => simp [Position.keep]
  | ok b u =>
    simp only [Position.keep, Option.some.injEq, Prod.mk.injEq, Position.mk.injEq,
      EStateM.Result.ok.injEq, and_assoc]
    grind

/-- Where `n` levels are left, a reader that counts reads what one does that does not, and leaves
the count as it was. -/
def Agrees (n : Nat) (R : CountingReader α) (r : Reader α) : Prop :=
  ∀ s : Position, s.levels = n → R s = s.keep (r s.toCursor)

theorem agrees_bracket (h : Agrees n CountingReader.inside body.read) {close : Char}
    {unclosed : Error} {f : Pattern → Pattern} :
    Agrees n (CountingReader.bracket close f)
      (do finish (f (← enclosed body.read close unclosed))) := by
  intro s hs
  rw [CountingReader.bracket, h s hs]
  simp only [bind, EStateM.bind, enclosed]
  cases body.read s.toCursor with
  | error e t => rfl
  | ok p t =>
    simp only [Position.keep, Option.bind_some]
    cases t.rest with
    | nil => rfl
    | cons c rest =>
      by_cases hc : c = close
      · simp only [hc, if_true]
        rfl
      · simp only [hc, if_false]

theorem agrees_atom (h : Agrees n CountingReader.inside body.read) :
    Agrees n CountingReader.atom (atom body.read) := by
  intro s hs
  rw [CountingReader.atom]
  split <;> rename_i hrest
  · simp only [atom, hrest]
    rfl
  · rw [atom_strRef hrest]
    rfl
  · rw [atom_plain hrest]
    exact agrees_bracket h _ hs
  · next hne =>
    rw [atom_exprRef hrest hne]
    rfl
  · next hb _ hq =>
    rw [atom_capture hrest hb hq]
    exact agrees_bracket h _ hs
  · rw [atom_star hrest]
    exact agrees_bracket h _ hs
  · simp only [atom, hrest]
    rfl

theorem agrees_atoms (h : Agrees n CountingReader.atom (atom body.read)) :
    Agrees n CountingReader.atoms (atoms body) := by
  -- The induction is on the text. The count, and with it the number of levels, stays.
  rintro ⟨s, k, hk⟩ hs
  change _ = Position.keep _ (atoms body s)
  fun_induction atoms body s with
  | case1 s hend =>
    rw [CountingReader.atoms, if_pos hend]
    rfl
  | case2 s hend e t ht =>
    rw [CountingReader.atoms, if_neg hend, h _ hs, ht]
    rfl
  | case3 s hend p t ht e u hu ih =>
    have hrest : CountingReader.atoms ⟨t, k, hk⟩ = none := by
      rw [ih hs, hu]
      rfl
    have hlt := atom_advances body.advances ht
    rw [CountingReader.atoms, if_neg hend, h _ hs, ht]
    simp only [Position.keep, Option.bind_eq_bind, Option.bind_some, dif_pos hlt, hrest,
      Option.bind_none]
  | case4 s hend p t ht ps u hu ih =>
    have hrest : CountingReader.atoms ⟨t, k, hk⟩ = some (ps, ⟨u, k, hk⟩) := by
      rw [ih hs, hu]
      rfl
    have hlt := atom_advances body.advances ht
    rw [CountingReader.atoms, if_neg hend, h _ hs, ht]
    simp only [Position.keep, Option.bind_eq_bind, Option.bind_some, dif_pos hlt, hrest]

theorem agrees_sequence (h : Agrees n CountingReader.atoms (atoms body)) :
    Agrees n CountingReader.sequence (sequence body) := by
  intro s hs
  rw [CountingReader.sequence, h s hs, sequence]
  rcases atoms body s.toCursor with (_ | ⟨p, _ | ⟨q, ps⟩⟩) | _ <;> rfl

theorem rest_length_lt_of_bar {s t : Cursor} {p : Pattern} {rest : List Char}
    (h : sequence body s = .ok p t) (ht : t.rest = '|' :: rest) :
    rest.length < s.rest.length := by
  have hlt := sequence_advances h
  rw [ht] at hlt
  exact Nat.lt_of_succ_lt hlt

theorem agrees_branches (h : Agrees n CountingReader.sequence (sequence body)) :
    Agrees n CountingReader.branches (branches body) := by
  rintro ⟨s, k, hk⟩ hs
  change _ = Position.keep _ (branches body s)
  fun_induction branches body s with
  | case1 s e t ht =>
    rw [CountingReader.branches, h _ hs, ht]
    rfl
  | case2 s p t ht rest hbar e u hu ih =>
    have hrest : CountingReader.branches ⟨{ t with rest }, k, hk⟩ = none := by
      rw [ih hs, hu]
      rfl
    have hlt := rest_length_lt_of_bar ht hbar
    rw [CountingReader.branches, h _ hs, ht]
    simp only [Position.keep, Option.bind_eq_bind, Option.bind_some, hbar, dif_pos hlt, hrest,
      Option.bind_none]
  | case3 s p t ht rest hbar ps u hu ih =>
    have hrest : CountingReader.branches ⟨{ t with rest }, k, hk⟩ = some (ps, ⟨u, k, hk⟩) := by
      rw [ih hs, hu]
      rfl
    have hlt := rest_length_lt_of_bar ht hbar
    rw [CountingReader.branches, h _ hs, ht]
    simp only [Position.keep, Option.bind_eq_bind, Option.bind_some, hbar, dif_pos hlt, hrest]
  | case4 s p t ht hne =>
    rw [CountingReader.branches, h _ hs, ht]
    simp only [Position.keep, Option.bind_eq_bind, Option.bind_some]

theorem agrees_expression (h : Agrees n CountingReader.branches (branches body)) :
    Agrees n CountingReader.expression (expression body) := by
  intro s hs
  rw [CountingReader.expression, h s hs, expression]
  rcases branches body s.toCursor with (_ | ⟨p, _ | ⟨q, ps⟩⟩) | _ <;> rfl

theorem agrees_of_inside (h : Agrees n CountingReader.inside body.read) :
    Agrees n CountingReader.expression (expression body) ∧
      Agrees n CountingReader.sequence (sequence body) := by
  have hseq := agrees_sequence (agrees_atoms (agrees_atom h))
  exact ⟨agrees_expression (agrees_branches hseq), hseq⟩

/-- The count has reached the limit just where no levels are left. -/
theorem agrees_inside (n : Nat) : Agrees n CountingReader.inside (interior n).read := by
  induction n with
  | zero =>
    intro s hs
    have hfull : s.depth = maxNesting := Nat.le_antisymm s.depth_le (Nat.sub_eq_zero_iff_le.mp hs)
    rw [CountingReader.inside, dif_pos hfull]
    rfl
  | succ n ih =>
    intro s hs
    simp only [Position.levels] at hs
    have hroom : s.depth ≠ maxNesting := by omega
    have hdeeper : (s.deeper hroom).levels = n := by
      simp only [Position.levels, Position.deeper]
      omega
    rw [CountingReader.inside, dif_neg hroom, (agrees_of_inside ih).1 _ hdeeper]
    change _ = s.keep (expression (interior n) s.toCursor)
    rw [Position.deeper]
    cases expression (interior n) s.toCursor <;> rfl

end CaptureGrammar.Pattern
