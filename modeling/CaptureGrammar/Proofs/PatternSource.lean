import CaptureGrammar.CommandLine.Program
import CaptureGrammar.Proofs.FailureMessage

/-!
The two ways to a pattern, by the arguments and by standard input.

Options are read the same whatever follows them, so that `--` and a pattern behind them change
nothing but where the pattern is from. On standard input it may end with line breaks, which are
taken off.
-/
namespace CaptureGrammar.CommandLine

open Pattern (normalize parse)

variable {o o' : Options} {step : Step} {awaits : Bool} {args rest : List String}
  {arg value p z : String} {cs : List Char} {f : Failure}

/-! ### Options in a row -/

/-- Whether an option can lead to the step. None ends the options, and none but the requests for
help and for the version settles what is to be done. -/
def Step.IsOfOption : Step → Prop
  | .proceed _ | .awaitFormat _ | .settle .help | .settle .version => True
  | .settle (.run _) | .endOptions => False

theorem isOfOption_turn {switch : Switch} (h : o.turn switch = .ok step) : step.IsOfOption := by
  cases switch <;> simp only [Options.turn] at h
  case strict | quiet =>
    split at h <;> cases h
    trivial
  all_goals
    cases h
    trivial

theorem isOfOption_setFormat (h : Step.proceed <$> o.setFormat value = .ok step) :
    step.IsOfOption := by
  cases hv : o.setFormat value with
  | error e =>
    rw [hv] at h
    cases h
  | ok o =>
    rw [hv] at h
    cases h
    trivial

theorem isOfOption_readLong (h : readLong o cs = .ok step) : step.IsOfOption := by
  simp only [readLong] at h
  split at h
  · cases h
  · exact isOfOption_turn h
  · exact isOfOption_setFormat h
  · cases h

theorem isOfOption_readLetters (h : readLetters o cs = .ok step) : step.IsOfOption := by
  induction cs generalizing o with
  | nil =>
    cases h
    trivial
  | cons c cs ih =>
    simp only [readLetters] at h
    split at h
    · cases h
    · split at h
      · cases h
        trivial
      · exact isOfOption_setFormat h
    · split at h
      · exact ih h
      · exact isOfOption_turn h

/-- Two dashes alone end the options. -/
theorem isOfOption_or_eq_dashes (h : readArgument o arg = .ok step) :
    step.IsOfOption ∨ arg = "--" := by
  simp only [readArgument] at h
  split at h
  · next hdashes => exact .inr (String.toList_inj.mp hdashes)
  · exact .inl (isOfOption_readLong h)
  · exact .inl (isOfOption_readLetters h)
  · cases hp : o.setPattern arg with
    | error e =>
      rw [hp] at h
      cases h
    | ok o =>
      rw [hp] at h
      cases h
      exact .inl trivial

/-- Arguments without `--` that make up a request leave their options to what follows them. -/
theorem readArguments_append (h : readArguments o awaits args = .ok (.run o'))
    (hdashes : "--" ∉ args) :
    readArguments o awaits (args ++ rest) = readArguments o' false rest := by
  induction args generalizing o awaits with
  | nil =>
    cases awaits with
    | true => cases h
    | false =>
      cases h
      rfl
  | cons arg args ih =>
    rw [List.mem_cons, not_or] at hdashes
    obtain ⟨harg, hargs⟩ := hdashes
    cases awaits with
    | true =>
      simp only [readArguments, if_true, List.cons_append] at h ⊢
      split at h
      · cases h
      · cases hv : o.setFormat arg with
        | error e => simp [hv] at h
        | ok o => simp_all
    | false =>
      simp only [readArguments, Bool.false_eq_true, if_false, List.cons_append] at h ⊢
      cases hstep : readArgument o arg with
      | error e => simp [hstep] at h
      | ok step =>
        have hoption : step.IsOfOption :=
          (isOfOption_or_eq_dashes hstep).resolve_right (Ne.symm harg)
        rw [hstep] at h
        cases step with
        | proceed o => exact ih h hargs
        | awaitFormat o => exact ih h hargs
        | settle request =>
          cases h
          exact hoption.elim
        | endOptions => exact hoption.elim

/-- After `--` comes the pattern, whatever it looks like. -/
theorem ofArguments_pattern (h : Request.ofArguments args = .ok (.run o)) (hnone : o.pattern = none)
    (hdashes : "--" ∉ args) :
    Request.ofArguments (args ++ ["--", p]) = .ok (.run { o with pattern := some p }) := by
  have hend : readArgument o "--" = .ok .endOptions := rfl
  rw [Request.ofArguments, readArguments_append h hdashes]
  simp only [readArguments, hend, List.foldlM_cons, List.foldlM_nil, Options.setPattern, hnone]
  rfl

/-! ### Standard input -/

theorem fromUTF8?_toUTF8 (s : String) : String.fromUTF8? s.toUTF8 = some s := by
  rw [String.fromUTF8?, String.toUTF8_eq_toByteArray, dif_pos s.isValidUTF8]
  rfl

/-- Line breaks at the end are taken off, and nothing else is. -/
theorem trimLineEnd_append (hp : ∀ c ∈ p.toList.getLast?, c ≠ '\r' ∧ c ≠ '\n')
    (hz : ∀ c ∈ z.toList, c = '\r' ∨ c = '\n') : trimLineEnd (p ++ z) = p := by
  have hbreaks : ∀ c ∈ z.toList.reverse, (c == '\r' || c == '\n') = true := by
    intro c hc
    simpa using hz c (List.mem_reverse.mp hc)
  have hkept : p.toList.reverse.dropWhile (fun c => c == '\r' || c == '\n') = p.toList.reverse := by
    cases hlast : p.toList.reverse with
    | nil => rfl
    | cons c cs =>
      have hc : p.toList.getLast? = some c := by
        rw [← List.head?_reverse, hlast]
        rfl
      obtain ⟨hr, hn⟩ := hp c hc
      simp [hr, hn]
  rw [trimLineEnd, String.toList_append, List.reverse_append,
    List.dropWhile_append_of_pos hbreaks, hkept, List.reverse_reverse, String.ofList_toList]

/-! ### Runs -/

/-- Whether a pattern is no pattern at all, or is not valid and has to be. -/
def Refused (s : String) (policy : Policy) : Prop :=
  (∃ e, parse (normalize s) = .error e) ∨
    policy = .strict ∧ ∃ r, parse (normalize s) = .ok r ∧ (Validation.ofParsed r).isValid = false

theorem refused_iff {policy : Policy} :
    Refused p policy ↔ ∃ f, (compile p policy).1 = .error f := by
  simp only [compile_eq_error_iff, Refused]
  constructor
  · rintro (⟨e, he⟩ | ⟨hstrict, r, hr, hv⟩)
    · exact ⟨_, .inl ⟨e, he, rfl⟩⟩
    · exact ⟨_, .inr ⟨hstrict, r, hr, hv, rfl⟩⟩
  · rintro ⟨f, ⟨e, he, -⟩ | ⟨hstrict, r, hr, hv, -⟩⟩
    · exact .inl ⟨e, he⟩
    · exact .inr ⟨hstrict, r, hr, hv⟩

theorem outcome_of_refused (h : Refused p o.policy) :
    (o.outcome p).code = 1 ∧ (o.outcome p).stdout = "" := by
  rw [refused_iff] at h
  obtain ⟨f, hf⟩ := h
  simp [Options.outcome, hf]

theorem code_of_not_refused (h : ¬ Refused p o.policy) : (o.outcome p).code = 0 := by
  rw [refused_iff] at h
  cases hc : (compile p o.policy).1 with
  | error f => exact absurd ⟨f, hc⟩ h
  | ok c => simp [Options.outcome, hc]

theorem run_of_pattern {stdin : ByteArray} (h : Request.ofArguments args = .ok (.run o))
    (hp : o.pattern = some p) : run args stdin = o.outcome p := by
  simp [run, h, Options.source?, hp]

theorem run_of_input (h : Request.ofArguments args = .ok (.run o)) (hnone : o.pattern = none) :
    run args z.toUTF8 = o.outcome (trimLineEnd z) := by
  simp only [run, h, Options.source?, hnone, fromUTF8?_toUTF8, Option.map_some]

/-- A pattern behind the options and `--`, whatever stands on standard input, and the same pattern
on standard input, with any line breaks behind it, lead to the same outcome. Where the pattern is
refused, the exit code says so and nothing goes to standard output. -/
theorem run_pattern_eq_run_input (stdin : ByteArray)
    (hargs : Request.ofArguments args = .ok (.run o)) (hnone : o.pattern = none)
    (hdashes : "--" ∉ args) (hp : ∀ c ∈ p.toList.getLast?, c ≠ '\r' ∧ c ≠ '\n')
    (hz : ∀ c ∈ z.toList, c = '\r' ∨ c = '\n') :
    run (args ++ ["--", p]) stdin = run args (p ++ z).toUTF8 ∧
      ∀ x ∈ [run (args ++ ["--", p]) stdin, run args (p ++ z).toUTF8],
        (Refused p o.policy → x.code = 1 ∧ x.stdout = "") ∧
          (¬ Refused p o.policy → x.code = 0) := by
  have hinput : run args (p ++ z).toUTF8 = o.outcome p := by
    rw [run_of_input hargs hnone, trimLineEnd_append hp hz]
  have hpattern : run (args ++ ["--", p]) stdin = o.outcome p := by
    rw [run_of_pattern (ofArguments_pattern hargs hnone hdashes) rfl]
    rfl
  rw [hinput, hpattern]
  refine ⟨rfl, fun x hx => ?_⟩
  obtain rfl : x = o.outcome p := by simpa using hx
  exact ⟨outcome_of_refused, code_of_not_refused⟩

/-- The options ask for JSON and for the strict policy. The pattern looks like an option, and refers
to a group before it. -/
theorem run_pattern_eq_run_input_strict :
    let args := ["-sv", "--format=json"]
    let p := "-(\\1)\n(a)"
    ∃ o, Request.ofArguments args = .ok (.run o) ∧ o.pattern = none ∧ "--" ∉ args ∧
      (∀ c ∈ p.toList.getLast?, c ≠ '\r' ∧ c ≠ '\n') ∧
      (∀ c ∈ "\r\n\n".toList, c = '\r' ∨ c = '\n') ∧ Refused p o.policy ∧
      run (args ++ ["--", p]) ⟨#[0xff]⟩ = run args (p ++ "\r\n\n").toUTF8 ∧
      (run args (p ++ "\r\n\n").toUTF8).code = 1 ∧
      (run args (p ++ "\r\n\n").toUTF8).stdout = "" := by
  intro args p
  let o : Options := { format := some .json, strict := true, verbosity := 1 }
  let root : Pattern := .concat [.char '-', .strRef 1, .char '\n', .group (some 1) (.char 'a')]
  have hargs : Request.ofArguments args = .ok (.run o) := rfl
  have hdashes : "--" ∉ args := by decide
  have hp : ∀ c ∈ p.toList.getLast?, c ≠ '\r' ∧ c ≠ '\n' := by
    have hlast : p.toList.getLast? = some ')' := by decide
    rw [hlast]
    rintro c ⟨⟩
    decide
  have hz : ∀ c ∈ "\r\n\n".toList, c = '\r' ∨ c = '\n' := by
    have hchars : "\r\n\n".toList = ['\r', '\n', '\n'] := rfl
    rw [hchars]
    simp
  have hparse : parse (normalize p) = .ok ⟨root, root.postorder, 2⟩ :=
    Pattern.parse_of_toOption (by with_unfolding_all decide)
  have hrefused : Refused p o.policy := .inr ⟨rfl, _, hparse, by decide⟩
  obtain ⟨hsame, hall⟩ := run_pattern_eq_run_input ⟨#[0xff]⟩ hargs rfl hdashes hp hz
  obtain ⟨hcode, hstdout⟩ := (hall _ (List.mem_cons_of_mem _ List.mem_cons_self)).1 hrefused
  exact ⟨o, hargs, rfl, hdashes, hp, hz, hrefused, hsame, hcode, hstdout⟩

end CaptureGrammar.CommandLine
