import CaptureGrammar.Proofs.Digits

/-!
Texts that show where they end.

When the texts of two values begin one and the same text, the values are equal and what stands
behind them is too. This is so of numbers, unless a digit stands behind them, and goes over from
items to lists.
-/
namespace CaptureGrammar

variable {α : Type} {P : List Char → Prop} {text : α → List Char} {a : α} {as bs : List α}
  {u v cs gap : List Char} {c sep close : Char} {n : Nat}

/-- Whether the text of `a` at the start of a longer text tells `a` and where it ends, as long as
what stands behind it has `P`. -/
def Readable (P : List Char → Prop) (text : α → List Char) (a : α) : Prop :=
  ∀ ⦃b u v⦄, P u → P v → text a ++ u = text b ++ v → a = b ∧ u = v

theorem Readable.mono (h : Readable (fun _ => True) text a) : Readable P text a :=
  fun _ _ _ _ _ heq => h trivial trivial heq

/-! ### Numbers -/

/-- Whether a text does not go on with a digit, which would count as one more of the number before
it. -/
def Stops (u : List Char) : Prop := ∀ c ∈ u.head?, c.isDigit = false

theorem stops_nil : Stops [] := nofun

theorem stops_cons : Stops (c :: u) ↔ c.isDigit = false := by simp [Stops]

theorem stops_comma : Stops (',' :: u) := stops_cons.mpr rfl

theorem stops_close : Stops (')' :: u) := stops_cons.mpr rfl

theorem takeWhile_digits_append (hu : Stops u) :
    (Nat.toDigits 10 n ++ u).takeWhile Char.isDigit = Nat.toDigits 10 n := by
  rw [List.takeWhile_append_of_pos fun c => isDigit_of_mem_toDigits]
  cases u with
  | nil => exact List.append_nil _
  | cons c u =>
    rw [List.takeWhile_cons_of_neg (by simp [stops_cons.mp hu]), List.append_nil]

theorem readable_digits (n : Nat) : Readable Stops (Nat.toDigits 10) n := by
  intro m u v hu hv h
  have hdigits : Nat.toDigits 10 n = Nat.toDigits 10 m := by
    rw [← takeWhile_digits_append (n := n) hu, h, takeWhile_digits_append hv]
  exact ⟨eq_of_toDigits_eq hdigits, List.append_cancel_left (hdigits ▸ h)⟩

theorem exists_digits_eq_cons (n : Nat) : ∃ c cs, Nat.toDigits 10 n = c :: cs ∧ c.isDigit := by
  cases hn : Nat.toDigits 10 n with
  | nil => exact absurd hn Nat.toDigits_ne_nil
  | cons c cs => exact ⟨c, cs, rfl, isDigit_of_mem_toDigits (hn ▸ List.mem_cons_self)⟩

theorem toList_toString_ofNat (n : Nat) : (toString (Int.ofNat n)).toList = Nat.toDigits 10 n :=
  Nat.toList_repr

theorem toList_toString_negSucc (n : Nat) :
    (toString (Int.negSucc n)).toList = '-' :: Nat.toDigits 10 (n + 1) := by
  rw [← Nat.toList_repr]
  exact String.toList_append

theorem cons_ne_toDigits (hc : c.isDigit = false) : c :: u ≠ Nat.toDigits 10 n ++ v := by
  obtain ⟨d, ds, hn, hd⟩ := exists_digits_eq_cons n
  rw [hn]
  exact fun h => ne_of_isDigit hd hc (List.cons.inj h).1

theorem readable_int (n : Int) : Readable Stops (fun n : Int => (toString n).toList) n := by
  intro m u v hu hv h
  cases n <;> cases m <;> simp only [toList_toString_ofNat, toList_toString_negSucc] at h
  case ofNat.ofNat =>
    obtain ⟨rfl, huv⟩ := readable_digits _ hu hv h
    exact ⟨rfl, huv⟩
  case ofNat.negSucc => exact absurd h.symm (cons_ne_toDigits rfl)
  case negSucc.ofNat => exact absurd h (cons_ne_toDigits rfl)
  case negSucc.negSucc n m =>
    obtain ⟨hnm, huv⟩ := readable_digits _ hu hv (List.cons.inj h).2
    exact ⟨by omega, huv⟩

theorem readable_number (n : UInt32) :
    Readable Stops (fun n : UInt32 => (toString n).toList) n := by
  intro m u v hu hv h
  simp only [toList_toString] at h
  obtain ⟨hnm, huv⟩ := readable_digits _ hu hv h
  exact ⟨UInt32.toNat_inj.mp hnm, huv⟩

/-- A number, or the sign `c :: cs` where there is none. -/
def numberOr (c : Char) (cs : List Char) (n : Option UInt32) : List Char :=
  n.elim (c :: cs) fun n => (toString n).toList

theorem cons_ne_number {n : UInt32} (hc : c.isDigit = false) :
    c :: u ≠ (toString n).toList ++ v := by
  rw [toList_toString]
  exact cons_ne_toDigits hc

theorem readable_numberOr (hc : c.isDigit = false) (n : Option UInt32) :
    Readable Stops (numberOr c cs) n := by
  intro m u v hu hv h
  cases n <;> cases m
  case none.none => exact ⟨rfl, List.append_cancel_left h⟩
  case none.some => exact absurd h (cons_ne_number hc)
  case some.none => exact absurd h.symm (cons_ne_number hc)
  case some.some n m =>
    obtain ⟨rfl, huv⟩ := readable_number n hu hv h
    exact ⟨rfl, huv⟩

/-! ### Lists -/

/-- Texts in a row are told up to a closing sign, if none of them starts with it. -/
theorem flatMap_inj (has : ∀ a ∈ as, Readable P text a) (hclose : ∀ a u v, text a ++ u ≠ close :: v)
    (hP : ∀ (as : List α) u, P (as.flatMap text ++ close :: u))
    (h : as.flatMap text ++ close :: u = bs.flatMap text ++ close :: v) : as = bs ∧ u = v := by
  induction as generalizing bs with
  | nil =>
    cases bs with
    | nil => exact ⟨rfl, (List.cons.inj h).2⟩
    | cons b bs =>
      rw [List.flatMap_cons, List.append_assoc] at h
      exact absurd h.symm (hclose _ _ _)
  | cons a as ih =>
    rw [List.flatMap_cons, List.append_assoc] at h
    cases bs with
    | nil => exact absurd h (hclose _ _ _)
    | cons b bs =>
      rw [List.flatMap_cons, List.append_assoc] at h
      obtain ⟨ha, has⟩ := List.forall_mem_cons.mp has
      obtain ⟨rfl, hrest⟩ := ha (hP _ _) (hP _ _) h
      obtain ⟨rfl, huv⟩ := ih has hrest
      exact ⟨rfl, huv⟩

theorem intercalate_map_cons : gap.intercalate ((a :: as).map text) =
    text a ++ as.flatMap (gap ++ text ·) := by
  induction as generalizing a with
  | nil => simp
  | cons b as ih =>
    rw [List.map_cons, List.map_cons, List.intercalate_cons_cons, ← List.map_cons, ih,
      List.flatMap_cons, List.append_assoc, List.append_assoc]

/-- Texts with separators between them are told up to a closing sign. -/
theorem intercalate_inj (has : ∀ a ∈ as, Readable Stops text a) (hsep : sep.isDigit = false)
    (hclose : close.isDigit = false) (hne : sep ≠ close) (htext : ∀ a u v, text a ++ u ≠ close :: v)
    (h : (sep :: gap).intercalate (as.map text) ++ close :: u =
      (sep :: gap).intercalate (bs.map text) ++ close :: v) : as = bs ∧ u = v := by
  have hstops : ∀ (as : List α) (u : List Char),
      Stops (as.flatMap (sep :: gap ++ text ·) ++ close :: u) := by
    intro as u
    cases as with
    | nil => exact stops_cons.mpr hclose
    | cons a as => exact stops_cons.mpr hsep
  cases as with
  | nil =>
    cases bs with
    | nil => exact ⟨rfl, (List.cons.inj h).2⟩
    | cons b bs =>
      rw [intercalate_map_cons, List.append_assoc] at h
      exact absurd h.symm (htext _ _ _)
  | cons a as =>
    rw [intercalate_map_cons, List.append_assoc] at h
    cases bs with
    | nil => exact absurd h (htext _ _ _)
    | cons b bs =>
      rw [intercalate_map_cons, List.append_assoc] at h
      obtain ⟨ha, has⟩ := List.forall_mem_cons.mp has
      obtain ⟨rfl, hrest⟩ := ha (hstops _ _) (hstops _ _) h
      have hitems : ∀ b ∈ as, Readable Stops (sep :: gap ++ text ·) b := by
        intro b hb c u v hu hv h
        rw [List.append_assoc, List.append_assoc] at h
        exact has b hb hu hv (List.append_cancel_left h)
      obtain ⟨rfl, huv⟩ := flatMap_inj hitems (fun b u v h => hne (List.cons.inj h).1) hstops hrest
      exact ⟨rfl, huv⟩

end CaptureGrammar
