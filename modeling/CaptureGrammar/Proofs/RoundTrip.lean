import CaptureGrammar.Pattern.Parsed
import CaptureGrammar.Proofs.ExpressionReading

/-! Reading a text and spelling a tree are inverse to each other. -/
namespace CaptureGrammar.Pattern

variable {s : String} {r : Parsed} {i : GroupId} {is : List GroupId}

/-- All that reading can yield, and from what. -/
theorem parse_eq_ok : parse s = .ok r ↔
    r.root.Fits maxNesting ∧ r.root.spelling = s.toList ∧ NumberedFrom 1 r.root.captures ∧
      r.completions = r.root.postorder ∧ r.nextGroupId = 1 + .ofNat r.root.captures.length := by
  constructor
  · intro h
    simp only [parse] at h
    split at h
    · next hread =>
      cases h
      obtain ⟨hfits, hlead, hrest⟩ := readAll_eq_ok.mp hread
      have htext := hlead.rest
      have hdone := hlead.finished
      rw [hrest, List.append_nil] at htext
      refine ⟨hfits, htext.symm, hlead.numbered, ?_, hlead.nextId⟩
      rw [hdone, List.append_nil, List.reverse_reverse]
      rfl
    · cases h
  · rintro ⟨hfits, htext, hids, hdone, hnext⟩
    have hlead : r.root.passage.Leads { rest := s.toList }
        ⟨[], r.nextGroupId, r.completions.reverse, r.root.captures.reverse⟩ := by
      refine ⟨?_, hids, hnext, ?_, ?_⟩
      · rw [List.append_nil]
        exact htext.symm
      · rw [hdone, List.append_nil]
        rfl
      · rw [List.append_nil]
        rfl
    have hread := readAll_eq_ok.mpr ⟨hfits, hlead, rfl⟩
    simp only [parse, hread, List.reverse_reverse]

/-- What a given text reads as can be computed. The loops of the reader recur on the length of what
is left, so `decide` follows them only under `with_unfolding_all`. -/
theorem parse_of_toOption (h : (parse s).toOption = some r) : parse s = .ok r := by
  cases hs : parse s with
  | error e =>
    rw [hs] at h
    cases h
  | ok t =>
    rw [hs] at h
    cases h
    rfl

theorem exists_error_of_toOption (h : (parse s).toOption = none) : ∃ e, parse s = .error e := by
  cases hs : parse s with
  | error e => exact ⟨e, rfl⟩
  | ok t =>
    rw [hs] at h
    cases h

/-- A text is spelled by the tree that is read from it, so different texts yield different trees. -/
theorem spelling_of_parse (h : parse s = .ok r) :
    String.ofList r.root.spelling = s ∧ r.root.IsCanonical ∧
      ∀ s' r', parse s' = .ok r' → r'.root = r.root → s' = s := by
  obtain ⟨hfits, htext, -⟩ := parse_eq_ok.mp h
  have hs : String.ofList r.root.spelling = s := by
    rw [htext, String.ofList_toList]
  refine ⟨hs, hfits.1, ?_⟩
  intro s' r' h' hroot
  obtain ⟨-, htext', -⟩ := parse_eq_ok.mp h'
  rw [← hs, ← hroot, htext', String.ofList_toList]

theorem spelling_of_parse_reference :
    ∃ r, parse "(a|<:>)(?1)" = .ok r ∧ String.ofList r.root.spelling = "(a|<:>)(?1)" ∧
      r.root = .concat [.group (some 1) (.alt [.char 'a', .many (.char ':')]), .exprRef 1] := by
  have hroot : (parse "(a|<:>)(?1)").toOption.map Parsed.root =
      some (.concat [.group (some 1) (.alt [.char 'a', .many (.char ':')]), .exprRef 1]) := by
    with_unfolding_all decide
  cases h : parse "(a|<:>)(?1)" with
  | error e =>
    rw [h] at hroot
    cases hroot
  | ok r =>
    rw [h] at hroot
    exact ⟨r, rfl, (spelling_of_parse h).1, Option.some.inj hroot⟩

theorem numberedFrom_of_range (h : is.map UInt32.toNat = List.range' i.toNat is.length) :
    NumberedFrom i is := by
  induction is generalizing i with
  | nil => trivial
  | cons j js ih =>
    rw [List.map_cons, List.length_cons, List.range'_succ, List.cons.injEq] at h
    obtain ⟨hj, hjs⟩ := h
    refine ⟨UInt32.toNat_inj.mp hj, ?_⟩
    cases js with
    | nil => trivial
    | cons k ks =>
      have hk : k.toNat = i.toNat + 1 := (List.cons.inj hjs).1
      have hi : (i + 1).toNat = i.toNat + 1 := by
        have hlt := k.toNat_lt
        rw [UInt32.toNat_add, UInt32.toNat_one]
        omega
      exact ih (hi ▸ hjs)

/-- A canonical tree whose capturing groups are numbered from 1 in the order in which they are
opened is what is read from the text that it spells. -/
theorem parse_spelling {p : Pattern} (hp : p.IsCanonical) (hn : p.nesting ≤ maxNesting)
    (hids : p.captures.map UInt32.toNat = List.range' 1 p.captures.length) :
    ∃ r, parse (String.ofList p.spelling) = .ok r ∧ r.root = p := by
  have hnum : NumberedFrom 1 p.captures := numberedFrom_of_range hids
  have hparse : parse (String.ofList p.spelling) =
      .ok ⟨p, p.postorder, 1 + .ofNat p.captures.length⟩ :=
    parse_eq_ok.mpr ⟨⟨hp, hn⟩, String.toList_ofList.symm, hnum, rfl, rfl⟩
  exact ⟨_, hparse, rfl⟩

/-- Characters that have a meaning behind `(` stand for themselves elsewhere. -/
theorem parse_spelling_sigils :
    let p : Pattern := .group (some 1) (.concat [.char ':', .char '?', .strRef 1, .char '\\',
      .many (.alt [.group (some 2) (.char '1'), .group none (.char '?')])])
    String.ofList p.spelling = "(:?(\\1)\\<(1)|(?:?)>)" ∧ p.IsCanonical ∧ p.nesting ≤ maxNesting ∧
      p.captures.map UInt32.toNat = List.range' 1 p.captures.length ∧
      ∃ r, parse (String.ofList p.spelling) = .ok r ∧ r.root = p := by
  intro p
  have hp : p.IsCanonical := by
    simp [p, many, IsCanonical, AllCanonical, delimiters, spelling, spellingOfAll]
  have hn : p.nesting ≤ maxNesting := by decide
  have hids : p.captures.map UInt32.toNat = List.range' 1 p.captures.length := by decide
  exact ⟨by decide, hp, hn, hids, parse_spelling hp hn hids⟩

end CaptureGrammar.Pattern
