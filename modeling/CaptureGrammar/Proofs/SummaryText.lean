import CaptureGrammar.Pattern.Summary
import CaptureGrammar.Proofs.QuotedText
import CaptureGrammar.Proofs.Tree

/-!
Patterns are told apart by their one-line forms.

No one-line form begins another one: that of a node tells its kind by the first letters, and every
part of it shows where it ends.
-/
namespace CaptureGrammar

theorem toList_boundText (n : Option UInt32) : (boundText n).toList = numberOr '∞' [] n := by
  cases n <;> rfl

namespace Pattern

variable {p q : Pattern} {ps qs : List Pattern} {c : Char} {id : GroupId} {u v : List Char}

/-! ### The forms of the kinds of node -/

def summaryChars (p : Pattern) : List Char := p.summary.toList

theorem map_toList_summaries (ps : List Pattern) :
    (summaries ps).map String.toList = ps.map summaryChars := by
  induction ps with
  | nil => rfl
  | cons p ps ih => rw [summaries, List.map_cons, List.map_cons, ih, summaryChars]

@[simp] theorem summaryChars_char :
    (char c).summaryChars = "Char(".toList ++ ((Text.charLiteral c).toList ++ [')']) := by
  change ("Char(" ++ Text.charLiteral c ++ ")").toList = _
  simp

@[simp] theorem summaryChars_concat : (concat ps).summaryChars =
    "Concat(".toList ++ ([',', ' '].intercalate (ps.map summaryChars) ++ [')']) := by
  change ("Concat(" ++ ", ".intercalate (summaries ps) ++ ")").toList = _
  simp [map_toList_summaries]

@[simp] theorem summaryChars_alt : (alt ps).summaryChars =
    "Alt(".toList ++ ([',', ' '].intercalate (ps.map summaryChars) ++ [')']) := by
  change ("Alt(" ++ ", ".intercalate (summaries ps) ++ ")").toList = _
  simp [map_toList_summaries]

@[simp] theorem summaryChars_group {id : Option GroupId} : (group id p).summaryChars =
    "Group(".toList ++ (numberOr '?' [':'] id ++ ',' :: ' ' :: (p.summaryChars ++ [')'])) := by
  cases id with
  | none =>
    change ("Group(?:, " ++ p.summary ++ ")").toList = _
    simp [summaryChars, numberOr]
  | some id =>
    change ("Group(" ++ toString id ++ ", " ++ p.summary ++ ")").toList = _
    simp [summaryChars, numberOr]

@[simp] theorem summaryChars_star {min : UInt32} {max : Option UInt32} :
    (star p min max).summaryChars =
    "Star(".toList ++ (p.summaryChars ++ (", min=".toList ++ ((toString min).toList ++
      ',' :: (" max=".toList ++ (numberOr '∞' [] max ++ [')']))))) := by
  change ("Star(" ++ p.summary ++ ", min=" ++ toString min ++ ", max=" ++ boundText max ++
    ")").toList = _
  simp [summaryChars, toList_boundText]

@[simp] theorem summaryChars_exprRef :
    (exprRef id).summaryChars = "ExprRef(".toList ++ ((toString id).toList ++ [')']) := by
  change ("ExprRef(" ++ toString id ++ ")").toList = _
  simp

@[simp] theorem summaryChars_strRef :
    (strRef id).summaryChars = "StrRef(".toList ++ ((toString id).toList ++ [')']) := by
  change ("StrRef(" ++ toString id ++ ")").toList = _
  simp

/-! ### Reading a form -/

theorem summaryChars_append_ne : p.summaryChars ++ u ≠ ')' :: v := by
  cases p <;> simp

theorem summaries_inj (hps : ∀ p ∈ ps, Readable (fun _ => True) summaryChars p)
    (h : [',', ' '].intercalate (ps.map summaryChars) ++ ')' :: u =
      [',', ' '].intercalate (qs.map summaryChars) ++ ')' :: v) : ps = qs ∧ u = v :=
  intercalate_inj (fun p hp => (hps p hp).mono) rfl rfl (by decide)
    (fun _ _ _ => summaryChars_append_ne) h

theorem readable_summary (p : Pattern) : Readable (fun _ => True) summaryChars p := by
  induction p using childrenInduction with
  | node p ih =>
    intro q u v _ _ h
    cases p with
    | char c =>
      cases q with
      | char d =>
        simp only [summaryChars_char, List.append_assoc, List.append_cancel_left_eq,
          List.cons_append, List.nil_append] at h
        obtain ⟨rfl, hrest⟩ := Text.readable_charLiteral c trivial trivial h
        exact ⟨rfl, (List.cons.inj hrest).2⟩
      | _ => simp at h
    | concat ps =>
      cases q with
      | concat qs =>
        simp only [summaryChars_concat, List.append_assoc, List.append_cancel_left_eq,
          List.cons_append, List.nil_append] at h
        obtain ⟨rfl, huv⟩ := summaries_inj ih h
        exact ⟨rfl, huv⟩
      | _ => simp at h
    | alt ps =>
      cases q with
      | alt qs =>
        simp only [summaryChars_alt, List.append_assoc, List.append_cancel_left_eq,
          List.cons_append, List.nil_append] at h
        obtain ⟨rfl, huv⟩ := summaries_inj ih h
        exact ⟨rfl, huv⟩
      | _ => simp at h
    | group id p =>
      cases q with
      | group id' q =>
        simp only [summaryChars_group, List.append_assoc, List.append_cancel_left_eq,
          List.cons_append, List.nil_append] at h
        obtain ⟨rfl, hbody⟩ := readable_numberOr rfl id stops_comma stops_comma h
        simp only [List.cons.injEq, true_and] at hbody
        obtain ⟨rfl, hrest⟩ := ih p (List.mem_singleton_self p) trivial trivial hbody
        exact ⟨rfl, (List.cons.inj hrest).2⟩
      | _ => simp at h
    | star p min max =>
      cases q with
      | star q min' max' =>
        simp only [summaryChars_star, List.append_assoc, List.append_cancel_left_eq,
          List.cons_append, List.nil_append] at h
        obtain ⟨rfl, hmin⟩ := ih p (List.mem_singleton_self p) trivial trivial h
        simp only [List.append_cancel_left_eq] at hmin
        obtain ⟨rfl, hmax⟩ := readable_number min stops_comma stops_comma hmin
        simp only [List.cons.injEq, true_and, List.append_cancel_left_eq] at hmax
        obtain ⟨rfl, hrest⟩ := readable_numberOr rfl max stops_close stops_close hmax
        exact ⟨rfl, (List.cons.inj hrest).2⟩
      | _ => simp at h
    | exprRef id =>
      cases q with
      | exprRef id' =>
        simp only [summaryChars_exprRef, List.append_assoc, List.append_cancel_left_eq,
          List.cons_append, List.nil_append] at h
        obtain ⟨rfl, hrest⟩ := readable_number id stops_close stops_close h
        exact ⟨rfl, (List.cons.inj hrest).2⟩
      | _ => simp at h
    | strRef id =>
      cases q with
      | strRef id' =>
        simp only [summaryChars_strRef, List.append_assoc, List.append_cancel_left_eq,
          List.cons_append, List.nil_append] at h
        obtain ⟨rfl, hrest⟩ := readable_number id stops_close stops_close h
        exact ⟨rfl, (List.cons.inj hrest).2⟩
      | _ => simp at h

/-- The one-line forms of two trees are the same only if the trees are. -/
theorem summary_inj : p.summary = q.summary ↔ p = q := by
  constructor
  · intro h
    have happend : p.summaryChars ++ [] = q.summaryChars ++ [] := by
      rw [summaryChars, summaryChars, h]
    exact (readable_summary p trivial trivial happend).1
  · rintro rfl
    rfl

end Pattern

end CaptureGrammar
