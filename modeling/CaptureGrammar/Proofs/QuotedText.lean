import CaptureGrammar.Proofs.JsonText
import CaptureGrammar.Text.Quoted

/-!
Quoted literals show what they quote and where they end, and nothing in them breaks the line.
-/
namespace CaptureGrammar.Text

open Json (hexValue hexValue_digitChar)

variable {quote c d : Char} {u : List Char} {n : Nat}

/-! ### Hexadecimal numbers -/

/-- The number that hexadecimal digits stand for. -/
def hexNumber (cs : List Char) : Nat := cs.foldl (fun n c => 16 * n + hexValue c) 0

theorem hexNumber_toDigits (n : Nat) : hexNumber (Nat.toDigits 16 n) = n := by
  induction n using Nat.strongRecOn with
  | _ n ih =>
    rw [Nat.toDigits_eq_if (by decide)]
    split
    · next hn => exact (Nat.zero_add _).trans (hexValue_digitChar n hn)
    · next hn =>
      have hdiv := ih (n / 16) (by omega)
      rw [hexNumber] at hdiv ⊢
      rw [List.foldl_append, hdiv, List.foldl_cons, List.foldl_nil,
        hexValue_digitChar _ (Nat.mod_lt n (by decide))]
      omega

theorem exists_digitChar_of_mem_toDigits (h : c ∈ Nat.toDigits 16 n) :
    ∃ k < 16, c = Nat.digitChar k := by
  induction n using Nat.strongRecOn with
  | _ n ih =>
    rw [Nat.toDigits_eq_if (by decide)] at h
    split at h
    · next hn => exact ⟨n, hn, List.mem_singleton.mp h⟩
    · next hn =>
      rcases List.mem_append.mp h with h | h
      · exact ih (n / 16) (by omega) h
      · exact ⟨n % 16, Nat.mod_lt n (by decide), List.mem_singleton.mp h⟩

theorem ne_brace_of_mem_toDigits (h : c ∈ Nat.toDigits 16 n) : (c != '\x7d') = true := by
  obtain ⟨k, hk, rfl⟩ := exists_digitChar_of_mem_toDigits h
  have hall : ∀ k < 16, (Nat.digitChar k != '\x7d') = true := by decide
  exact hall k hk

/-! ### Characters -/

/-- The first character of what is written inside a literal, and what follows it. -/
def readChar : List Char → Option (Char × List Char)
  | '\\' :: '0' :: u => some ('\x00', u)
  | '\\' :: 't' :: u => some ('\t', u)
  | '\\' :: 'n' :: u => some ('\n', u)
  | '\\' :: 'r' :: u => some ('\r', u)
  | '\\' :: 'u' :: '\x7b' :: u =>
    some (.ofNat (hexNumber (u.takeWhile (· != '\x7d'))), (u.dropWhile (· != '\x7d')).drop 1)
  | '\\' :: c :: u => some (c, u)
  | c :: u => some (c, u)
  | [] => none

theorem readChar_code (n : Nat) (u : List Char) :
    readChar ('\\' :: 'u' :: '\x7b' :: (Nat.toDigits 16 n ++ '\x7d' :: u)) =
      some (.ofNat n, u) := by
  have hdigits : ∀ c ∈ Nat.toDigits 16 n, (c != '\x7d') = true := fun c => ne_brace_of_mem_toDigits
  simp [readChar, List.takeWhile_append_of_pos hdigits, List.dropWhile_append_of_pos hdigits,
    hexNumber_toDigits]

theorem readChar_escape (hquote : quote = '\x27' ∨ quote = '"') (c : Char) (u : List Char) :
    readChar (escape quote c ++ u) = some (c, u) := by
  unfold escape
  split_ifs with hnul htab hn hr hsign hplain
  · subst hnul; rfl
  · subst htab; rfl
  · subst hn; rfl
  · subst hr; rfl
  · rcases hsign with rfl | rfl
    · rfl
    · rcases hquote with rfl | rfl <;> rfl
  · have hne : c ≠ '\\' := fun h => hsign (.inl h)
    simp [readChar, hne]
  · have hcode := readChar_code c.toNat u
    rw [Char.ofNat_toNat] at hcode
    simpa using hcode

theorem readable_escape (hquote : quote = '\x27' ∨ quote = '"') (c : Char) :
    Readable (fun _ => True) (escape quote) c := by
  intro d u v _ _ h
  have hread := congrArg readChar h
  rw [readChar_escape hquote, readChar_escape hquote] at hread
  cases hread
  exact ⟨rfl, rfl⟩

theorem toList_charLiteral : (charLiteral c).toList = '\x27' :: (escape '\x27' c ++ ['\x27']) := by
  simp [charLiteral, quoted]

theorem readable_charLiteral (c : Char) :
    Readable (fun _ => True) (fun c => (charLiteral c).toList) c := by
  intro d u v _ _ h
  simp only [toList_charLiteral, List.cons_append, List.append_assoc, List.cons.injEq,
    true_and] at h
  obtain ⟨hcd, hu⟩ := readable_escape (.inl rfl) c trivial trivial h
  exact ⟨hcd, (List.cons.inj hu).2⟩

/-! ### Lines -/

theorem isPrintable_of_mem_toDigits (h : c ∈ Nat.toDigits 16 n) : isPrintable c := by
  obtain ⟨k, hk, rfl⟩ := exists_digitChar_of_mem_toDigits h
  have hall : ∀ k < 16, isPrintable (Nat.digitChar k) := by decide
  exact hall k hk

theorem isPrintable_of_mem_escape (hquote : isPrintable quote) (c : Char) :
    ∀ d ∈ escape quote c, isPrintable d := by
  have hbackslash : isPrintable '\\' := by decide
  unfold escape
  split_ifs with hnul htab hn hr hsign hplain
  · exact List.all_eq_true.mp (by decide)
  · exact List.all_eq_true.mp (by decide)
  · exact List.all_eq_true.mp (by decide)
  · exact List.all_eq_true.mp (by decide)
  · rcases hsign with rfl | rfl
    · simpa using hbackslash
    · simpa using ⟨hbackslash, hquote⟩
  · simpa using (Bool.and_eq_true_iff.mp hplain).1
  · have hopening : ∀ d ∈ ['\\', 'u', '\x7b'], isPrintable d := List.all_eq_true.mp (by decide)
    have hclosing : ∀ d ∈ ['\x7d'], isPrintable d := List.all_eq_true.mp (by decide)
    intro d hd
    rcases List.mem_append.mp hd with hd | hd
    · rcases List.mem_append.mp hd with hd | hd
      · exact hopening d hd
      · exact isPrintable_of_mem_toDigits hd
    · exact hclosing d hd

theorem isPrintable_of_mem_charLiteral (h : d ∈ (charLiteral c).toList) : isPrintable d := by
  have hquote : isPrintable '\x27' := by decide
  rw [toList_charLiteral, List.mem_cons, List.mem_append, List.mem_singleton] at h
  rcases h with rfl | h | rfl
  · exact hquote
  · exact isPrintable_of_mem_escape hquote c d h
  · exact hquote

end CaptureGrammar.Text
