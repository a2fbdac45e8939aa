import CaptureGrammar.Compilation
import CaptureGrammar.Proofs.RoundTrip

/-!
The two policies, run beside each other on one pattern.

They differ on patterns that are read and are not valid, and there by what the strict one leaves
out: it stops at the verdict.
-/
namespace CaptureGrammar

open Compilation (grammarEvents readingEvents)
open Pattern (Parsed normalize parse)

variable {s : String} {r : Parsed} {e : Pattern.Error} {policy : Policy} {c : Compilation}
  {x : Event}

/-- Whether the pattern passes the check. -/
def Validation.passes (v : Validation) : Check → Bool
  | .groupCount => v.groupCount
  | .referenceOrder => v.referenceOrder

theorem Validation.failed_eq (v : Validation) :
    v.failed = [Check.groupCount, .referenceOrder].filter fun k => !v.passes k := by
  obtain ⟨groupCount, referenceOrder⟩ := v
  cases groupCount <;> cases referenceOrder <;> rfl

/-- Whether the event is about the grammar. -/
def Event.isOfGrammar : Event → Bool
  | .allocated _ | .compiled _ | .danglingReference _ => true
  | .rewroteMarker .. | .openedGroup _ | .parsed .. | .validated _ | .acceptedInvalid _ => false

/-! ### The ways that a run can go -/

/-- The events of a run on a pattern that is read, before the verdict on it. -/
def parsedEvents (s : String) (r : Parsed) : List Event :=
  readingEvents s ++ [.parsed r.groupCount r.completions.length]

/-- What is known in the end of a pattern that is read as `r`. -/
def Compilation.ofParsed (s : String) (r : Parsed) : Compilation where
  source := s
  normalized := normalize s
  parsed := r
  validation := .ofParsed r
  grammar := .ofPattern r.root
  annotated := .ofPattern r.root

theorem compile_of_error (h : parse (normalize s) = .error e) :
    compile s policy = (.error (.unreadable s e), readingEvents s) := by
  simp only [compile, h]

theorem compile_of_valid (h : parse (normalize s) = .ok r)
    (hv : (Validation.ofParsed r).isValid = true) :
    compile s policy = (.ok (.ofParsed s r),
      parsedEvents s r ++ .validated (.ofParsed r) :: grammarEvents r.root) := by
  simp [compile, h, hv, Compilation.ofParsed, parsedEvents]

theorem compile_advisory_of_not_valid (h : parse (normalize s) = .ok r)
    (hv : (Validation.ofParsed r).isValid = false) :
    compile s .advisory = (.ok (.ofParsed s r), parsedEvents s r ++ .validated (.ofParsed r) ::
      .acceptedInvalid (Validation.ofParsed r).failed :: grammarEvents r.root) := by
  simp [compile, h, hv, Compilation.ofParsed, parsedEvents]

theorem compile_strict_of_not_valid (h : parse (normalize s) = .ok r)
    (hv : (Validation.ofParsed r).isValid = false) :
    compile s .strict = (.error (.invalid s (Validation.ofParsed r).failed),
      parsedEvents s r ++ [.validated (.ofParsed r)]) := by
  simp [compile, h, hv, parsedEvents]

/-! ### Both policies -/

theorem compile_strict_eq_ok_iff : (compile s .strict).1 = .ok c ↔
    (compile s .advisory).1 = .ok c ∧ c.validation.isValid = true := by
  cases h : parse (normalize s) with
  | error e =>
    rw [compile_of_error h, compile_of_error h]
    simp
  | ok r =>
    cases hv : (Validation.ofParsed r).isValid with
    | true =>
      rw [compile_of_valid h hv, compile_of_valid h hv]
      constructor
      · rintro ⟨⟩
        exact ⟨rfl, hv⟩
      · exact And.left
    | false =>
      rw [compile_strict_of_not_valid h hv, compile_advisory_of_not_valid h hv]
      constructor
      · rintro ⟨⟩
      · rintro ⟨⟨⟩, hvalid⟩
        exact absurd (hv.symm.trans hvalid) Bool.false_ne_true

theorem compile_strict_eq_advisory (hc : (compile s .strict).1 = .ok c) :
    compile s .strict = compile s .advisory := by
  cases h : parse (normalize s) with
  | error e => rw [compile_of_error h, compile_of_error h]
  | ok r =>
    cases hv : (Validation.ofParsed r).isValid with
    | true => rw [compile_of_valid h hv, compile_of_valid h hv]
    | false =>
      rw [compile_strict_of_not_valid h hv] at hc
      cases hc

/-- Before the verdict there is nothing but what reading reports. -/
theorem mem_parsedEvents (h : x ∈ parsedEvents s r) :
    (∃ t, x = .rewroteMarker s t) ∨ (∃ id, x = .openedGroup id) ∨ ∃ k n, x = .parsed k n := by
  simp only [parsedEvents, readingEvents, List.mem_append, List.mem_map, List.mem_singleton] at h
  rcases h with (h | ⟨id, -, rfl⟩) | rfl
  · split at h
    · exact .inl ⟨_, List.mem_singleton.mp h⟩
    · cases h
  · exact .inr (.inl ⟨id, rfl⟩)
  · exact .inr (.inr ⟨_, _, rfl⟩)

/-- The message of a pattern that is refused names the checks that it fails. -/
theorem message_invalid (v : Validation) : (Failure.invalid s v.failed).message =
    "Invalid pattern " ++ Text.stringLiteral s ++ ": failed " ++
      ", ".intercalate (([Check.groupCount, .referenceOrder].filter fun k => !v.passes k).map
        Check.name) ++ "." := by
  rw [← v.failed_eq]
  exact String.append_empty

/-- The strict policy refuses the patterns that are read and not valid, naming the checks that fail,
and breaks off at the verdict. Otherwise the policies agree in all that a run yields and reports. -/
theorem compile_policies (s : String) :
    (∀ c, (compile s .strict).1 = .ok c ↔
      (compile s .advisory).1 = .ok c ∧ c.validation.isValid = true) ∧
    (∀ c, (compile s .strict).1 = .ok c → compile s .strict = compile s .advisory) ∧
    (∀ e, parse (normalize s) = .error e →
      (compile s .strict).1 = .error (.unreadable s e) ∧ compile s .strict = compile s .advisory) ∧
    ∀ r, parse (normalize s) = .ok r → (Validation.ofParsed r).isValid = false →
      (∃ c, (compile s .advisory).1 = .ok c ∧ c.parsed = r ∧ c.validation = .ofParsed r) ∧
      (∃ f, (compile s .strict).1 = .error f ∧
        f.message = "Invalid pattern " ++ Text.stringLiteral s ++ ": failed " ++
          ", ".intercalate (([Check.groupCount, .referenceOrder].filter fun k =>
            !(Validation.ofParsed r).passes k).map Check.name) ++ ".") ∧
      (∃ early later, (compile s .advisory).2 = early ++ .validated (.ofParsed r) :: later ∧
        (compile s .strict).2 = early ++ [.validated (.ofParsed r)] ∧
        ∀ v, .validated v ∉ early) ∧
      ∀ x ∈ (compile s .strict).2, x.isOfGrammar = false := by
  refine ⟨fun c => compile_strict_eq_ok_iff, fun c => compile_strict_eq_advisory, ?_, ?_⟩
  · intro e h
    rw [compile_of_error h, compile_of_error h]
    exact ⟨rfl, rfl⟩
  · intro r h hv
    rw [compile_strict_of_not_valid h hv, compile_advisory_of_not_valid h hv]
    refine ⟨⟨_, rfl, rfl, rfl⟩, ⟨_, rfl, message_invalid _⟩, ⟨_, _, rfl, rfl, ?_⟩, ?_⟩
    · intro v hmem
      rcases mem_parsedEvents hmem with ⟨_, hx⟩ | ⟨_, hx⟩ | ⟨_, _, hx⟩ <;> cases hx
    · intro x hx
      rcases List.mem_append.mp hx with hx | hx
      · rcases mem_parsedEvents hx with ⟨_, rfl⟩ | ⟨_, rfl⟩ | ⟨_, _, rfl⟩ <;> rfl
      · rw [List.mem_singleton.mp hx]
        rfl

/-- The pattern has ten groups, and refers to the first before that is complete. -/
theorem compile_policies_both_checks :
    let s := "(\\1)(a)(a)(a)(a)(a)(a)(a)(a)(a)(a)"
    ∃ r, parse (normalize s) = .ok r ∧ (Validation.ofParsed r).isValid = false ∧
      (∃ c, (compile s .advisory).1 = .ok c ∧ c.parsed = r) ∧
      ∃ f, (compile s .strict).1 = .error f ∧ f.message = "Invalid pattern " ++
        "\"(\\\\1)(a)(a)(a)(a)(a)(a)(a)(a)(a)(a)\"" ++
          ": failed group count, reference order." := by
  intro s
  let p : Pattern := .concat (.strRef 1 ::
    (List.range' 1 10).map fun i => .group (some (.ofNat i)) (.char 'a'))
  have hparse : parse (normalize s) = .ok ⟨p, p.postorder, 11⟩ :=
    Pattern.parse_of_toOption (by with_unfolding_all decide)
  have hv : (Validation.ofParsed ⟨p, p.postorder, 11⟩).isValid = false := by decide
  obtain ⟨-, -, -, hrefused⟩ := compile_policies s
  obtain ⟨⟨c, hc, hcr, -⟩, ⟨f, hf, hmessage⟩, -⟩ := hrefused _ hparse hv
  refine ⟨_, hparse, hv, ⟨c, hc, hcr⟩, f, hf, hmessage.trans ?_⟩
  decide

end CaptureGrammar
