import CaptureGrammar.Annotated.Json
import CaptureGrammar.Proofs.JsonText

/-!
Annotated patterns are told apart by their JSON texts.

A text tells its JSON value, and each field of the value tells what it was made from: missing
lengths and bounds by their missing fields, and groups that do not capture by a negative number.
-/
namespace CaptureGrammar.Annotated

variable {i j : Option GroupId} {m n : Option Nat} {key : String}

theorem groupNumber_inj (h : i.elim noncapturing (fun id => (id.toNat : Int)) =
    j.elim noncapturing fun id => (id.toNat : Int)) : i = j := by
  cases i <;> cases j <;> simp only [noncapturing, Option.elim_none, Option.elim_some] at h
  case none.none => rfl
  case none.some => omega
  case some.none => omega
  case some.some => rw [UInt32.toNat_inj.mp (Int.ofNat_inj.mp h)]

theorem optionalField_inj (h : optionalField key m = optionalField key n) : m = n := by
  cases m <;> cases n
  case none.none => rfl
  case none.some => cases h
  case some.none => cases h
  case some.some m n =>
    have hfield : (key, Json.number m) = (key, Json.number n) := (List.cons.inj h).1
    rw [Int.ofNat_inj.mp (Json.number.inj (Prod.mk.inj hfield).2)]

theorem number_toNat_inj {m n : UInt32}
    (h : Json.number (m.toNat : Int) = Json.number (n.toNat : Int)) : m = n :=
  UInt32.toNat_inj.mp (Int.ofNat_inj.mp (Json.number.inj h))

mutual

theorem toJson_inj (a b : Annotated) (h : a.toJson = b.toJson) : a = b := by
  cases a with
  | char c n =>
    cases b with
    | char d m =>
      obtain ⟨rfl, hlength⟩ : c = d ∧ (n : Int) = m := by simpa [toJson] using h
      rw [Int.ofNat_inj.mp hlength]
    | _ => simp [toJson] at h
  | concat as n =>
    cases b with
    | concat bs m =>
      obtain ⟨hparts, hlength⟩ : toJsons as = toJsons bs ∧
        optionalField "length" n = optionalField "length" m := by simpa [toJson] using h
      rw [toJsons_inj as bs hparts, optionalField_inj hlength]
    | _ => simp [toJson] at h
  | alt as =>
    cases b with
    | alt bs =>
      have hbranches : toJsons as = toJsons bs := by simpa [toJson] using h
      rw [toJsons_inj as bs hbranches]
    | _ => simp [toJson] at h
  | group i a n =>
    cases b with
    | group j b m =>
      simp only [toJson, Json.object.injEq, List.cons_append, List.nil_append, List.cons.injEq,
        Prod.mk.injEq, Json.number.injEq, true_and] at h
      obtain ⟨hid, hbody, hlength⟩ := h
      rw [groupNumber_inj hid, toJson_inj a b hbody, optionalField_inj hlength]
    | _ => simp [toJson] at h
  | star a min max =>
    cases b with
    | star b min' max' =>
      obtain ⟨hbody, hmin, hmax⟩ : a.toJson = b.toJson ∧
        (Json.number min.toNat = Json.number min'.toNat) ∧
        optionalField "maxRepeats" (max.map UInt32.toNat) =
          optionalField "maxRepeats" (max'.map UInt32.toNat) := by simpa [toJson] using h
      have hmax := Option.map_injective (fun _ _ => UInt32.toNat_inj.mp) (optionalField_inj hmax)
      rw [toJson_inj a b hbody, number_toNat_inj hmin, hmax]
    | _ => simp [toJson] at h
  | exprRef id =>
    cases b with
    | exprRef id' =>
      have hid : Json.number id.toNat = Json.number id'.toNat := by simpa [toJson] using h
      rw [number_toNat_inj hid]
    | _ => simp [toJson] at h
  | strRef id =>
    cases b with
    | strRef id' =>
      have hid : Json.number id.toNat = Json.number id'.toNat := by simpa [toJson] using h
      rw [number_toNat_inj hid]
    | _ => simp [toJson] at h

theorem toJsons_inj (as bs : List Annotated) (h : toJsons as = toJsons bs) : as = bs := by
  cases as with
  | nil =>
    cases bs with
    | nil => rfl
    | cons b bs => simp [toJsons] at h
  | cons a as =>
    cases bs with
    | nil => simp [toJsons] at h
    | cons b bs =>
      simp only [toJsons, List.cons.injEq] at h
      rw [toJson_inj a b h.1, toJsons_inj as bs h.2]

end

/-- Trees with the same JSON text are the same. In a text, the string of a character ends at its
closing quote and nowhere else: no other string begins what it begins. -/
theorem compact_toJson_inj (a b : Annotated) :
    (a.toJson.compact = b.toJson.compact ↔ a = b) ∧
    ∀ (c : Char) (t : String) (u v : List Char),
      (Json.string c.toString).toList ++ u = (Json.string t).toList ++ v ↔
        c.toString = t ∧ u = v := by
  refine ⟨⟨fun h => toJson_inj a b (Json.compact_injective h), fun h => h ▸ rfl⟩,
    fun c t u v => ?_⟩
  constructor
  · exact fun h => Json.readable_string _ trivial trivial h
  · rintro ⟨rfl, rfl⟩
    rfl

example : (toJson (.group none (.char '"' 1) none)).compact =
    "\x7b\"type\":\"Group\",\"groupId\":-1,\"child\":" ++
      "\x7b\"type\":\"Char\",\"value\":\"\\\"\",\"length\":1\x7d\x7d" := by
  decide +kernel

end CaptureGrammar.Annotated
