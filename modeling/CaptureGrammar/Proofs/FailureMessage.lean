import CaptureGrammar.Proofs.FinalErrors
import CaptureGrammar.Proofs.Policies
import CaptureGrammar.Proofs.QuotedText

/-!
Messages of failures: one line each, and of no two sources alike.

The source stands in a message as a quoted literal, and what a pattern error shows of it is quoted
too. The one character that stands as it is in a message is what closes nothing, which is a bracket.
-/
namespace CaptureGrammar

open Pattern (normalize parse)

variable {s t : String} {c d : Char} {cs rest : List Char} {e : Pattern.Error} {policy : Policy}
  {f g : Failure} {checks : List Check}

/-! ### Lines -/

namespace Text

/-- Whether all characters of a text can stand in a line as they are. -/
def IsLine (s : String) : Prop := ∀ c ∈ s.toList, isPrintable c

instance : Decidable (IsLine s) :=
  decidable_of_iff (s.toList.all isPrintable = true) List.all_eq_true

theorem isLine_append : IsLine (s ++ t) ↔ IsLine s ∧ IsLine t := by
  simp only [IsLine, String.toList_append, List.forall_mem_append]

theorem IsLine.between {u : String} (ht : IsLine t) (hs : IsLine s) (hu : IsLine u) :
    IsLine (s ++ t ++ u) :=
  isLine_append.mpr ⟨isLine_append.mpr ⟨hs, ht⟩, hu⟩

theorem isLine_intercalate {lines : List String} (hs : IsLine s) (hlines : ∀ t ∈ lines, IsLine t) :
    IsLine (s.intercalate lines) := by
  induction lines with
  | nil => simp [IsLine]
  | cons t lines ih =>
    rw [List.forall_mem_cons] at hlines
    cases lines with
    | nil =>
      rw [String.intercalate_singleton]
      exact hlines.1
    | cons u lines =>
      rw [String.intercalate_cons_cons]
      exact hs.between hlines.1 (ih hlines.2)

theorem toList_stringLiteral :
    (stringLiteral s).toList = '"' :: (s.toList.flatMap (escape '"') ++ ['"']) := by
  simp [stringLiteral, quoted]

theorem isLine_stringLiteral (s : String) : IsLine (stringLiteral s) := by
  have hquote : isPrintable '"' := by decide
  intro c hc
  rw [toList_stringLiteral, List.mem_cons, List.mem_append, List.mem_singleton] at hc
  rcases hc with rfl | hc | rfl
  · exact hquote
  · obtain ⟨d, -, hd⟩ := List.mem_flatMap.mp hc
    exact isPrintable_of_mem_escape hquote d c hd
  · exact hquote

/-- What can stand in a line is no control character of ASCII. -/
theorem not_control_of_isPrintable (h : isPrintable c) : 0x20 ≤ c.toNat ∧ c.toNat ≠ 0x7f := by
  unfold isPrintable at h
  split at h
  · simp only [Bool.and_eq_true, decide_eq_true_eq] at h
    omega
  · omega

set_option maxRecDepth 4000 in
/-- Beyond ASCII, the characters that break lines are among those listed as unprintable. -/
theorem not_isPrintable_of_lineBreak (h : c ∈ ['\x85', '\u2028', '\u2029']) :
    ¬ isPrintable c := by
  simp only [List.mem_cons, List.not_mem_nil, or_false] at h
  rcases h with rfl | rfl | rfl <;> decide

/-- No character is written so that it closes its literal. -/
theorem escape_append_ne_quote (u : List Char) : escape '"' c ++ rest ≠ '"' :: u := by
  unfold escape
  split_ifs with hnul htab hn hr hsign <;> simp_all

theorem readable_stringLiteral (s : String) :
    Readable (fun _ => True) (fun s => (stringLiteral s).toList) s := by
  intro t u v _ _ h
  simp only [toList_stringLiteral, List.cons_append, List.append_assoc, List.cons.injEq,
    true_and] at h
  obtain ⟨hst, huv⟩ := flatMap_inj (P := fun _ => True) (fun c _ => readable_escape (.inr rfl) c)
    (fun _ _ _ => escape_append_ne_quote _) (fun _ _ => trivial) h
  exact ⟨String.toList_inj.mp hst, huv⟩

end Text

open Text (IsLine isLine_append isLine_stringLiteral)

/-! ### Pattern errors -/

namespace Pattern

namespace Scanner

variable {m n : Scanner}

theorem enter_ne_unmatchedClose {b : Bracket} : m.enter b cs ≠ .error (.unmatchedClose d) := by
  intro h
  simp only [enter] at h
  split at h <;> cases h

theorem reference_ne_unmatchedClose {sigil : Char} :
    m.reference sigil cs ≠ .error (.unmatchedClose d) := by
  intro h
  simp only [reference] at h
  split at h
  · cases h
  · split at h
    · split at h <;> cases h
    · cases h

theorem eq_of_leave (h : m.leave c cs = .error (.unmatchedClose d)) : d = c := by
  simp only [leave] at h
  split at h
  · split at h
    · cases h
      rfl
    · next b _ _ =>
      split at h
      · cases h
      · cases b <;> cases h
  · cases h

/-- The machine finds only closing characters unmatched. -/
theorem close_of_step (h : m.step c cs = .error (.unmatchedClose d)) :
    ∃ b : Bracket, d = b.close := by
  simp only [step] at h
  split at h
  · split at h <;> cases h
  · exact ⟨.group, eq_of_leave h⟩
  · exact ⟨.star, eq_of_leave h⟩
  · exact absurd h enter_ne_unmatchedClose
  · exact absurd h reference_ne_unmatchedClose
  · exact absurd h enter_ne_unmatchedClose
  · exact absurd h reference_ne_unmatchedClose
  · exact absurd h enter_ne_unmatchedClose
  · cases h

theorem close_of_run (h : m.run cs = .error (.unmatchedClose d)) :
    ∃ b : Bracket, d = b.close := by
  fun_induction run m cs with
  | case1 m =>
    simp only [finish] at h
    split at h
    · next b _ _ => cases b <;> cases h
    · split at h <;> cases h
  | case2 m c cs e hstep =>
    cases h
    exact close_of_step hstep
  | case3 m c cs n rest hstep ih => exact ih h

end Scanner

theorem close_of_parse (h : parse s = .error (.unmatchedClose d)) : ∃ b : Bracket, d = b.close :=
  Scanner.close_of_run (parse_eq_error.mp h)

/-- What a pattern error shows of the pattern is quoted, or it is a bracket. -/
theorem isLine_message (h : parse s = .error e) : IsLine e.message := by
  cases e with
  | unclosedGroup | unclosedRepetition | emptyExpression => decide
  | tooDeep =>
    have hlimit : IsLine (toString maxNesting) := by decide
    exact hlimit.between (by decide) (by decide)
  | unmatchedClose c =>
    obtain ⟨b, rfl⟩ := close_of_parse h
    have hclose : IsLine b.close.toString := by cases b <;> decide
    exact hclose.between (by decide) (by decide)
  | unrecognizedAtom text =>
    exact (isLine_stringLiteral text).between (by decide) (by decide)

end Pattern

/-! ### Failures -/

theorem isLine_names (checks : List Check) : IsLine (Check.names checks) := by
  refine Text.isLine_intercalate (by decide) fun name hname => ?_
  obtain ⟨k, -, rfl⟩ := List.mem_map.mp hname
  cases k <;> decide

/-- A run fails on a text that is no pattern, and under the strict policy on one that is not
valid. -/
theorem compile_eq_error_iff : (compile s policy).1 = .error f ↔
    (∃ e, parse (normalize s) = .error e ∧ f = .unreadable s e) ∨
      policy = .strict ∧ ∃ r, parse (normalize s) = .ok r ∧
        (Validation.ofParsed r).isValid = false ∧
          f = .invalid s (Validation.ofParsed r).failed := by
  cases h : parse (normalize s) with
  | error e =>
    rw [compile_of_error h]
    simp [@eq_comm _ _ f]
  | ok r =>
    cases hv : (Validation.ofParsed r).isValid with
    | true =>
      rw [compile_of_valid h hv]
      simp [hv]
    | false =>
      cases policy with
      | advisory =>
        rw [compile_advisory_of_not_valid h hv]
        simp
      | strict =>
        rw [compile_strict_of_not_valid h hv]
        simp [hv, @eq_comm _ _ f]

namespace Failure

def source : Failure → String
  | .unreadable source _ | .invalid source _ => source

theorem message_unreadable : (unreadable s e).message =
    "Failed to parse " ++ Text.stringLiteral s ++ (": " ++ e.message) := rfl

theorem message_refused : (invalid s checks).message = "Invalid pattern " ++
    Text.stringLiteral s ++ ": failed " ++ Check.names checks ++ "." := String.append_empty

/-- The kinds of failure are told by how their messages begin, and what comes next is the source. -/
theorem source_eq_of_message_eq (h : f.message = g.message) : f.source = g.source := by
  have hchars := congrArg String.toList h
  cases f <;> cases g <;> simp only [message_unreadable, message_refused, String.toList_append,
    List.append_assoc] at hchars
  case unreadable.unreadable | invalid.invalid =>
    have hrest := List.append_cancel_left hchars
    exact (Text.readable_stringLiteral _ trivial trivial hrest).1
  all_goals simp at hchars

end Failure

theorem source_of_compile (h : (compile s policy).1 = .error f) : f.source = s := by
  rcases compile_eq_error_iff.mp h with ⟨e, -, rfl⟩ | ⟨-, r, -, -, rfl⟩ <;> rfl

theorem isLine_message_of_compile (h : (compile s policy).1 = .error f) : IsLine f.message := by
  have hsource := isLine_stringLiteral s
  rcases compile_eq_error_iff.mp h with ⟨e, hparse, rfl⟩ | ⟨-, r, -, -, rfl⟩
  · have hcause := Pattern.isLine_message hparse
    simp only [Failure.message_unreadable, isLine_append]
    exact ⟨⟨by decide, hsource⟩, by decide, hcause⟩
  · have hchecks := isLine_names (Validation.ofParsed r).failed
    simp only [Failure.message_refused, isLine_append]
    exact ⟨⟨⟨⟨by decide, hsource⟩, by decide⟩, hchecks⟩, by decide⟩

/-- The message of a failed run is one line, without control characters whatever the source holds,
and it tells the source. -/
theorem message_of_compile (h : (compile s policy).1 = .error f) :
    (∀ c ∈ f.message.toList, 0x20 ≤ c.toNat ∧ c.toNat ≠ 0x7f ∧
      c ∉ ['\x85', '\u2028', '\u2029']) ∧
    ∀ t policy' g, (compile t policy').1 = .error g → f.message = g.message → s = t := by
  refine ⟨fun c hc => ?_, fun t policy' g hg heq => ?_⟩
  · have hprint := isLine_message_of_compile h c hc
    obtain ⟨hlow, hdelete⟩ := Text.not_control_of_isPrintable hprint
    exact ⟨hlow, hdelete, fun hbreak => Text.not_isPrintable_of_lineBreak hbreak hprint⟩
  · rw [← source_of_compile h, ← source_of_compile hg]
    exact Failure.source_eq_of_message_eq heq

/-- The source has a line break and a quote in it, and ends with a parenthesis that closes
nothing. -/
theorem message_of_compile_line_break :
    let s := "a\n\")"
    ∃ f, (compile s .advisory).1 = .error f ∧
      f.message = "Failed to parse \"a\\n\\\")\": Unmatched ')' in pattern" ∧
      (∀ c ∈ f.message.toList, 0x20 ≤ c.toNat ∧ c.toNat ≠ 0x7f ∧
        c ∉ ['\x85', '\u2028', '\u2029']) ∧
      ∀ t policy' g, (compile t policy').1 = .error g → f.message = g.message → s = t := by
  intro s
  have hrun : Pattern.Scanner.run {} ['a', '\n', '"', ')'] = .error (.unmatchedClose ')') := by
    simp [Pattern.Scanner.run_cons, Pattern.Scanner.resume, Pattern.Scanner.step,
      Pattern.Scanner.leave]
  have hchars : (normalize s).toList = ['a', '\n', '"', ')'] := by decide
  have hparse : parse (normalize s) = .error (.unmatchedClose ')') :=
    Pattern.parse_eq_error.mpr (hchars ▸ hrun)
  have hfailed : (compile s .advisory).1 = .error (.unreadable s (.unmatchedClose ')')) := by
    rw [compile_of_error hparse]
  exact ⟨_, hfailed, by decide, message_of_compile hfailed⟩

end CaptureGrammar
