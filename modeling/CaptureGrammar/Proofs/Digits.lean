import CaptureGrammar.Pattern.Basic

/-! Numbers written in digits. -/
namespace CaptureGrammar

variable {n : UInt32} {c d : Char}

theorem toList_toString (n : UInt32) : (toString n).toList = Nat.toDigits 10 n.toNat := by
  change (toString n.toNat).toList = _
  rw [Nat.toString_eq_repr, Nat.toList_repr]

theorem isDigit_of_mem_toDigits {k : Nat} (h : c ∈ Nat.toDigits 10 k) : c.isDigit :=
  Nat.isDigit_of_mem_toDigits (by decide) (by decide) h

theorem eq_of_toDigits_eq {k l : Nat} (h : Nat.toDigits 10 k = Nat.toDigits 10 l) : k = l := by
  have hnat := congrArg (Nat.ofDigitChars 10 · 0) h
  simpa only [Nat.ofDigitChars_ten_toDigits] using hnat

/-! ### Single digits -/

theorem ne_of_isDigit (hc : c.isDigit) (hd : d.isDigit = false) : d ≠ c := by
  rintro rfl
  rw [hc] at hd
  cases hd

/-- The number that the digit `c` stands for. -/
def digitValue (c : Char) : UInt32 := c.val - '0'.val

theorem toNat_digitValue (h : c.isDigit) : (digitValue c).toNat + 48 = c.toNat := by
  have hge : '0'.val ≤ c.val := by
    simp only [Char.isDigit, Bool.and_eq_true, decide_eq_true_eq] at h
    exact h.1
  have hsub : (digitValue c).toNat = c.val.toNat - '0'.val.toNat := UInt32.toNat_sub_of_le _ _ hge
  have hnat : 48 ≤ c.val.toNat := UInt32.le_iff_toNat_le.mp hge
  have hzero : '0'.val.toNat = 48 := rfl
  have hc : c.toNat = c.val.toNat := rfl
  omega

theorem digitValue_le_nine (h : c.isDigit) : digitValue c ≤ 9 := by
  have hle := (Char.isDigit_iff_toNat.mp h).2
  have hval := toNat_digitValue h
  rw [UInt32.le_iff_toNat_le]
  change c.toNat ≤ 57 at hle
  change (digitValue c).toNat ≤ 9
  omega

theorem toList_toString_of_le_nine (h : n ≤ 9) : (toString n).toList = [Nat.digitChar n.toNat] := by
  have hlt : n.toNat < 10 := Nat.lt_succ_of_le (UInt32.le_iff_toNat_le.mp h)
  rw [toList_toString, Nat.toDigits_of_lt_base hlt]

theorem toList_toString_digitValue (h : c.isDigit) : (toString (digitValue c)).toList = [c] := by
  have hval := toNat_digitValue h
  have hlt : (digitValue c).toNat < 10 :=
    Nat.lt_succ_of_le (UInt32.le_iff_toNat_le.mp (digitValue_le_nine h))
  rw [toList_toString_of_le_nine (digitValue_le_nine h), List.cons.injEq]
  refine ⟨Char.toNat_inj.mp ?_, rfl⟩
  rw [Nat.toNat_digitChar_of_lt_ten hlt]
  omega

/-- A number of one digit is the value of that digit. -/
theorem exists_digit (h : n ≤ 9) : ∃ c : Char, c.isDigit ∧ n = digitValue c := by
  have hlt : n.toNat < 10 := Nat.lt_succ_of_le (UInt32.le_iff_toNat_le.mp h)
  have hdigit : (Nat.digitChar n.toNat).isDigit := by
    rw [Nat.isDigit_digitChar]
    exact decide_eq_true hlt
  refine ⟨_, hdigit, UInt32.toNat_inj.mp ?_⟩
  have hval := toNat_digitValue hdigit
  rw [Nat.toNat_digitChar_of_lt_ten hlt] at hval
  omega

end CaptureGrammar
