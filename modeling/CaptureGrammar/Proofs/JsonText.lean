import CaptureGrammar.Json
import CaptureGrammar.Proofs.UniqueReading
import Mathlib.Tactic.SplitIfs

/-! JSON values are told apart by their compact texts. -/
namespace CaptureGrammar.Json

variable {s t : String} {u u' cs : List Char} {c : Char} {v w : Json}

/-! ### Strings -/

/-- The value of a hexadecimal digit. -/
def hexValue (c : Char) : Nat := if c.isDigit then c.toNat - '0'.toNat else c.toNat - 'a'.toNat + 10

theorem hexValue_digitChar : ∀ n < 16, hexValue n.digitChar = n := by decide

/-- The character that is written behind a backslash, and what follows it. -/
def readEscaped : List Char → Option (Char × List Char)
  | 'b' :: u => some ('\x08', u)
  | 't' :: u => some ('\t', u)
  | 'n' :: u => some ('\n', u)
  | 'f' :: u => some ('\x0c', u)
  | 'r' :: u => some ('\r', u)
  | 'u' :: '0' :: '0' :: c :: d :: u => some (.ofNat (16 * hexValue c + hexValue d), u)
  | c :: u => some (c, u)
  | [] => none

/-- The first character of what is written inside a JSON string, and what follows it. -/
def readChar : List Char → Option (Char × List Char)
  | c :: u => if c = '\\' then readEscaped u else some (c, u)
  | [] => none

theorem readChar_escape (c : Char) (u : List Char) : readChar (escape c ++ u) = some (c, u) := by
  unfold escape
  split_ifs with hsign hb ht hn hf hr hcontrol
  · rcases hsign with rfl | rfl <;> rfl
  · subst hb; rfl
  · subst ht; rfl
  · subst hn; rfl
  · subst hf; rfl
  · subst hr; rfl
  · have hlt : c.toNat < 32 := hcontrol
    have hvalue : 16 * hexValue (c.toNat / 16).digitChar + hexValue (c.toNat % 16).digitChar =
        c.toNat := by
      rw [hexValue_digitChar _ (by omega), hexValue_digitChar _ (by omega), Nat.div_add_mod]
    simp [readChar, readEscaped, hvalue]
  · simp [readChar, not_or.mp hsign]

theorem readable_escape (c : Char) : Readable (fun _ => True) escape c := by
  intro d u v _ _ h
  have hread := congrArg readChar h
  rw [readChar_escape, readChar_escape] at hread
  cases hread
  exact ⟨rfl, rfl⟩

/-- No character is written so that it closes its string. -/
theorem escape_append_ne : escape c ++ u ≠ '"' :: cs := by
  unfold escape
  split_ifs with hsign <;> simp_all

theorem toList_string : (string s).toList = '"' :: (s.toList.flatMap escape ++ ['"']) := by
  rw [string, String.toList_ofList, List.cons_append]

theorem readable_string (s : String) : Readable (fun _ => True) (fun s => (string s).toList) s := by
  intro t u v _ _ h
  simp only [toList_string, List.cons_append, List.append_assoc, List.cons.injEq, true_and] at h
  obtain ⟨hst, hu⟩ := flatMap_inj (fun c _ => readable_escape c) (fun _ _ _ => escape_append_ne)
    (fun _ _ => trivial) h
  exact ⟨String.toList_inj.mp hst, hu⟩

/-! ### Values -/

def chars (v : Json) : List Char := v.compact.toList

/-- A field of an object in the compact text. -/
def fieldChars (f : String × Json) : List Char := (string f.1).toList ++ ':' :: f.2.chars

theorem map_toList_compactItems (vs : List Json) :
    (compactItems vs).map String.toList = vs.map chars := by
  induction vs with
  | nil => rfl
  | cons v vs ih => exact congrArg (chars v :: ·) ih

theorem map_toList_compactFields (fs : List (String × Json)) :
    (compactFields fs).map String.toList = fs.map fieldChars := by
  induction fs with
  | nil => rfl
  | cons f fs ih =>
    obtain ⟨k, v⟩ := f
    simp [compactFields, fieldChars, chars, ih]

theorem chars_number {n : Int} : (number n).chars = (toString n).toList := rfl

theorem chars_text : (text s).chars = (string s).toList := rfl

theorem chars_array {vs : List Json} : (array vs).chars =
    '[' :: ([','].intercalate (vs.map chars) ++ [']']) := by
  change ("[" ++ ",".intercalate (compactItems vs) ++ "]").toList = _
  simp [String.toList_intercalate, map_toList_compactItems]

theorem chars_object {fs : List (String × Json)} : (object fs).chars =
    '\x7b' :: ([','].intercalate (fs.map fieldChars) ++ ['\x7d']) := by
  change ("\x7b" ++ ",".intercalate (compactFields fs) ++ "\x7d").toList = _
  simp [String.toList_intercalate, map_toList_compactFields]

/-- Induction over JSON values. -/
@[elab_as_elim]
theorem induction {motive : Json → Prop} (number : ∀ n, motive (.number n))
    (text : ∀ s, motive (.text s)) (array : ∀ vs, (∀ v ∈ vs, motive v) → motive (.array vs))
    (object : ∀ fs, (∀ f ∈ fs, motive f.2) → motive (.object fs)) : ∀ v, motive v
  | .number n => number n
  | .text s => text s
  | .array vs => array vs fun v _ => induction number text array object v
  | .object fs => object fs fun f hf =>
    have hlt : sizeOf f.2 < sizeOf fs := by
      have hsize := List.sizeOf_lt_of_mem hf
      have hpair : sizeOf f = 1 + sizeOf f.1 + sizeOf f.2 := rfl
      omega
    induction number text array object f.2

/-- Whether the text of a value of this kind can start with `c`. -/
def StartsWith : Json → Char → Prop
  | .number _, c => c.isDigit ∨ c = '-'
  | .text _, c => c = '"'
  | .array _, c => c = '['
  | .object _, c => c = '\x7b'

theorem exists_startsWith (v : Json) : ∃ c cs, v.chars = c :: cs ∧ v.StartsWith c := by
  cases v with
  | number n =>
    rw [chars_number]
    cases n with
    | ofNat n =>
      obtain ⟨c, cs, hn, hc⟩ := exists_digits_eq_cons n
      rw [toList_toString_ofNat]
      exact ⟨c, cs, hn, .inl hc⟩
    | negSucc n => exact ⟨_, _, toList_toString_negSucc n, .inr rfl⟩
  | text s => exact ⟨_, _, chars_text.trans toList_string, rfl⟩
  | array vs => exact ⟨_, _, chars_array, rfl⟩
  | object fs => exact ⟨_, _, chars_object, rfl⟩

theorem startsWith_of_append (h : v.chars ++ u = c :: cs) : v.StartsWith c := by
  obtain ⟨d, ds, hv, hd⟩ := exists_startsWith v
  rw [hv] at h
  exact (List.cons.inj h).1 ▸ hd

/-- Values whose texts begin alike are of one kind. -/
theorem exists_startsWith_both (h : v.chars ++ u = w.chars ++ u') :
    ∃ c, v.StartsWith c ∧ w.StartsWith c := by
  obtain ⟨c, cs, hv, hc⟩ := exists_startsWith v
  rw [hv] at h
  exact ⟨c, hc, startsWith_of_append h.symm⟩

theorem readable_fieldChars {f : String × Json}
    (h : Readable Stops chars f.2) : Readable Stops fieldChars f := by
  intro g u u' hu hu' heq
  rw [fieldChars, fieldChars, List.append_assoc, List.append_assoc] at heq
  obtain ⟨hkey, heq⟩ := readable_string f.1 trivial trivial heq
  obtain ⟨hvalue, huu⟩ := h hu hu' (List.cons.inj heq).2
  exact ⟨Prod.ext hkey hvalue, huu⟩

/-- A value in a larger text is told by its text, unless that goes on with a digit. -/
theorem readable_compact (v : Json) : Readable Stops chars v := by
  induction v using induction with
  | number n =>
    intro w u u' hu hu' h
    obtain ⟨c, hv, hw⟩ := exists_startsWith_both h
    cases w with
    | number m =>
      rw [chars_number, chars_number] at h
      obtain ⟨rfl, huu⟩ := readable_int n hu hu' h
      exact ⟨rfl, huu⟩
    | _ =>
      cases hw
      simp [StartsWith] at hv
  | text s =>
    intro w u u' _ _ h
    obtain ⟨c, rfl, hw⟩ := exists_startsWith_both h
    cases w with
    | text t =>
      rw [chars_text, chars_text] at h
      obtain ⟨rfl, huu⟩ := readable_string s trivial trivial h
      exact ⟨rfl, huu⟩
    | _ => simp [StartsWith] at hw
  | array vs ih =>
    intro w u u' _ _ h
    obtain ⟨c, rfl, hw⟩ := exists_startsWith_both h
    cases w with
    | array ws =>
      simp only [chars_array, List.cons_append, List.append_assoc, List.nil_append,
        List.cons.injEq, true_and] at h
      have hclose : ∀ (v : Json) (u u' : List Char), v.chars ++ u ≠ ']' :: u' := by
        intro v u u' hv
        have hv := startsWith_of_append hv
        cases v <;> simp [StartsWith] at hv
      obtain ⟨rfl, huu⟩ := intercalate_inj ih rfl rfl (by decide) hclose h
      exact ⟨rfl, huu⟩
    | _ => simp [StartsWith] at hw
  | object fs ih =>
    intro w u u' _ _ h
    obtain ⟨c, rfl, hw⟩ := exists_startsWith_both h
    cases w with
    | object gs =>
      simp only [chars_object, List.cons_append, List.append_assoc, List.nil_append,
        List.cons.injEq, true_and] at h
      have hclose : ∀ (f : String × Json) (u u' : List Char), fieldChars f ++ u ≠ '\x7d' :: u' := by
        intro f u u' hf
        rw [fieldChars, toList_string] at hf
        cases (List.cons.inj hf).1
      obtain ⟨rfl, huu⟩ :=
        intercalate_inj (fun f hf => readable_fieldChars (ih f hf)) rfl rfl (by decide) hclose h
      exact ⟨rfl, huu⟩
    | _ => simp [StartsWith] at hw

theorem compact_injective (h : v.compact = w.compact) : v = w := by
  have happend : v.chars ++ [] = w.chars ++ [] := by rw [chars, chars, h]
  exact (readable_compact v stops_nil stops_nil happend).1

end CaptureGrammar.Json
