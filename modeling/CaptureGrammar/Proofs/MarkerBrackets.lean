import CaptureGrammar.Proofs.AngleBrackets
import CaptureGrammar.Proofs.MarkerRewriting
import CaptureGrammar.Proofs.Policies

/-!
What a marker repeats in a pattern that is read after the rewriting.

If a bracket is put in for it, the repetition is of the group before the marker as long as the
marker stands right behind that, and else of more. If none is put in, the marker can still end a
repetition: one that the source begins itself.
-/
namespace CaptureGrammar.Pattern

variable {s : String} {r : Parsed} {p : Pattern} {cs ds u v w before after : List Char}

/-! ### Texts that balance -/

theorem ShortestBalanced.not_mem_rest (h : ShortestBalanced (v ++ w)) (hv : Balanced v) :
    '(' ∉ w ∧ ')' ∉ w := by
  have heq : w.count '(' = w.count ')' := by
    have hall := h.1.1
    have hstart := hv.1
    rw [List.count_append, List.count_append] at hall
    omega
  by_cases hpos : 0 < w.count '('
  · have hwhole : w = v ++ w := h.2 w (List.suffix_append v w) ⟨heq, hpos⟩
    exact absurd (List.append_left_eq_self.mp hwhole.symm) hv.ne_nil
  · have hzero : w.count '(' = 0 := Nat.eq_zero_of_not_pos hpos
    exact ⟨List.count_eq_zero.mp hzero, List.count_eq_zero.mp (heq ▸ hzero)⟩

theorem eq_nil_of_getLast? (h : (w ++ v).getLast? = some ')') (hv : ')' ∉ v) : v = [] := by
  rw [List.getLast?_append] at h
  cases hlast : v.getLast? with
  | none => exact List.getLast?_eq_none_iff.mp hlast
  | some c =>
    rw [hlast] at h
    cases h
    exact absurd (List.mem_of_getLast? hlast) hv

/-- Where a group or a reference and a shortest balanced text begin alike, the balanced text goes on
without parentheses, if at all. -/
theorem exists_eq_spelling_append (h : p.IsCanonical) (hp : inParentheses p.completion = true)
    (hw : ShortestBalanced w) (ht : w ++ cs = p.spelling ++ ds) :
    ∃ v, w = p.spelling ++ v ∧ '(' ∉ v ∧ ')' ∉ v := by
  have hshort := shortestBalanced_spelling h hp
  rcases List.append_eq_append_iff.mp ht with ⟨v, hv, -⟩ | ⟨v, rfl, -⟩
  · -- The tree's text ends with a parenthesis, so it is not the longer of the two.
    have hfree : ')' ∉ v := (ShortestBalanced.not_mem_rest (hv ▸ hshort) hw.1).2
    have hnil : v = [] := eq_nil_of_getLast? (hv ▸ getLast?_spelling h hp) hfree
    exact ⟨[], by rw [hv, hnil, List.append_nil, List.append_nil], List.not_mem_nil,
      List.not_mem_nil⟩
  · exact ⟨v, rfl, hw.not_mem_rest hshort.1⟩

/-- A tree whose text begins as a shortest balanced text does begins with an opening parenthesis. -/
theorem head?_of_shortestBalanced (h : p.IsCanonical) (hw : ShortestBalanced w)
    (ht : w ++ cs = p.spelling ++ ds) : p.spelling.head? = some '(' := by
  obtain ⟨c, w, rfl⟩ := List.exists_cons_of_ne_nil hw.1.ne_nil
  obtain ⟨d, text, htext⟩ := List.exists_cons_of_ne_nil (spelling_ne_nil h)
  have hend := endsSequence_spelling h []
  rw [htext] at ht hend ⊢
  obtain rfl : c = d := (List.cons.inj ht).1
  rcases hw.head_paren with rfl | rfl
  · rfl
  · cases hend

theorem inParentheses_of_isAtom (h : p.IsCanonical) (ha : p.IsAtom)
    (hhead : p.spelling.head? = some '(') : inParentheses p.completion = true := by
  cases p with
  | char c =>
    cases hhead
    exact absurd List.mem_cons_self h
  | star => cases hhead
  | concat | alt => cases ha
  | group | exprRef | strRef => rfl

/-! ### The text in the brackets -/

/-- Between angle brackets, a shortest balanced text is a group or a reference and what else there
is without parentheses. If there is nothing else, the brackets are those of a repetition of it. -/
theorem exists_group_of_wrapped (h : p.IsCanonical) (hw : ShortestBalanced w)
    (ht : p.spelling = u ++ '<' :: (w ++ '>' :: after)) :
    ∃ q v, w = q.spelling ++ v ∧ inParentheses q.completion = true ∧ ('(' ∉ v ∧ ')' ∉ v) ∧
      ⟨u.length + 1, q⟩ ∈ placed 0 p ∧ (v = [] → ⟨u.length, many q⟩ ∈ placed 0 p) := by
  obtain ⟨body, rest, hrest, hstar⟩ := exists_star_of_opening h ht
  have hbody : body.IsCanonical := (h.of_mem (node_mem_nodes hstar)).1
  have hinside : placed (u.length + 1) body ⊆ placed 0 p := fun x hx =>
    placed_subset_of_mem p 0 _ hstar (List.mem_cons_of_mem _ hx)
  obtain ⟨q, more, hatom, hplaced, hmore, hq⟩ := exists_first_atom hbody (u.length + 1)
  have hqcanon : q.IsCanonical := h.of_mem (node_mem_nodes (hinside hplaced))
  have htext : w ++ '>' :: after = q.spelling ++ (more ++ '>' :: rest) := by
    rw [hrest, hmore, List.append_assoc]
  have hparen : inParentheses q.completion = true :=
    inParentheses_of_isAtom hqcanon hatom (head?_of_shortestBalanced hqcanon hw htext)
  obtain ⟨v, rfl, hfree⟩ := exists_eq_spelling_append hqcanon hparen hw htext
  refine ⟨q, v, rfl, hparen, hfree, hinside hplaced, ?_⟩
  rintro rfl
  -- An expression ends at the bracket that stands behind the atom, so the atom is the whole body.
  rcases hq with rfl | hend
  · exact hstar
  · rw [List.append_nil] at htext
    have hclose : '>' :: after = more ++ '>' :: rest := List.append_cancel_left htext
    cases more with
    | nil => cases hend
    | cons c more =>
      cases hclose
      cases hend

/-! ### Markers in patterns that are read -/

/-- When a bracket is put in for the marker of a pattern that is read, it begins a repetition. What
stands between it and the marker begins with a group or a reference, and has no parentheses behind
that. It is just the group or the reference, and that alone is repeated, if the marker stands right
behind a closing parenthesis, and only then. -/
theorem repeated_of_parse (hs : s.toList = before ++ '*' :: after) (hb : '*' ∉ before)
    (hopen : openRepetition before ≠ before) (h : parse (normalize s) = .ok r) :
    ∃ u w, before = u ++ w ∧ ShortestBalanced w ∧
      normalize s = String.ofList (u ++ '<' :: (w ++ '>' :: after)) ∧
      (∃ body, ⟨u.length, many body⟩ ∈ placed 0 r.root) ∧
      (∃ q v, w = q.spelling ++ v ∧ inParentheses q.completion = true ∧ ('(' ∉ v ∧ ')' ∉ v) ∧
        ⟨u.length + 1, q⟩ ∈ placed 0 r.root) ∧
      (before.getLast? = some ')' ↔ ∃ q, w = q.spelling ∧ inParentheses q.completion = true ∧
        ⟨u.length, many q⟩ ∈ placed 0 r.root) := by
  obtain ⟨u, w, rfl, hw, hput⟩ : ∃ u w, before = u ++ w ∧ ShortestBalanced w ∧
      openRepetition before = u ++ '<' :: w :=
    (openRepetition_cases before).resolve_right fun hnone => hopen hnone.2
  have hnorm : normalize s = String.ofList (u ++ '<' :: (w ++ '>' :: after)) := by
    rw [normalize_of_marker hs hb, hput, List.append_assoc, List.cons_append]
  obtain ⟨hfits, htext, -⟩ := parse_eq_ok.mp h
  rw [hnorm, String.toList_ofList] at htext
  obtain ⟨body, -, -, hstar⟩ := exists_star_of_opening hfits.1 htext
  obtain ⟨q, v, hq, hparen, hfree, hplaced, hwhole⟩ := exists_group_of_wrapped hfits.1 hw htext
  refine ⟨u, w, rfl, hw, hnorm, ⟨body, hstar⟩, ⟨q, v, hq, hparen, hfree, hplaced⟩, ?_⟩
  constructor
  · intro hlast
    have hnil : v = [] := by
      rw [hq, ← List.append_assoc] at hlast
      exact eq_nil_of_getLast? hlast hfree.2
    exact ⟨q, by rw [hq, hnil, List.append_nil], hparen, hwhole hnil⟩
  · rintro ⟨q', rfl, hparen', hplaced'⟩
    have hcanon' : q'.IsCanonical := (hfits.1.of_mem (node_mem_nodes hplaced')).1
    rw [List.getLast?_append, getLast?_spelling hcanon' hparen']
    rfl

/-- The marker stands behind a group that has a group in it and another before it. -/
theorem repeated_of_parse_nested :
    ∃ r, parse (normalize "(a)((b)\\|c)*d") = .ok r ∧
      ∃ u w, "(a)((b)\\|c)".toList = u ++ w ∧ ∃ q, w = q.spelling ∧
        inParentheses q.completion = true ∧ ⟨u.length, many q⟩ ∈ placed 0 r.root := by
  let p : Pattern := .concat [.group (some 1) (.char 'a'), .many (.group (some 2)
    (.alt [.concat [.group (some 3) (.char 'b'), .char '\\'], .char 'c'])), .char 'd']
  have hparse : parse (normalize "(a)((b)\\|c)*d") = .ok ⟨p, p.postorder, 4⟩ :=
    parse_of_toOption (by with_unfolding_all decide)
  have hs : "(a)((b)\\|c)*d".toList = "(a)((b)\\|c)".toList ++ '*' :: ['d'] := by decide
  have hb : '*' ∉ "(a)((b)\\|c)".toList := by decide
  have hopen : openRepetition "(a)((b)\\|c)".toList ≠ "(a)((b)\\|c)".toList := by decide
  obtain ⟨u, w, huw, -, -, -, -, hrepeated⟩ := repeated_of_parse hs hb hopen hparse
  exact ⟨_, hparse, u, w, huw, hrepeated.mp (by decide)⟩

/-- Behind a group and a character, the marker repeats both. -/
theorem repeated_beyond_group :
    openRepetition "(a)b".toList = '<' :: "(a)b".toList ∧ normalize "(a)b*" = "<(a)b>" ∧
      (∃ r, parse (normalize "(a)b*") = .ok r ∧
        r.root = .many (.concat [.group (some 1) (.char 'a'), .char 'b'])) ∧
      ∀ q : Pattern, q.IsCanonical → inParentheses q.completion = true →
        q.spelling ≠ "(a)b".toList := by
  have hput : openRepetition "(a)b".toList = '<' :: "(a)b".toList := by decide
  have hnorm : normalize "(a)b*" = "<(a)b>" := by decide
  let p : Pattern := .many (.concat [.group (some 1) (.char 'a'), .char 'b'])
  have hparse : parse (normalize "(a)b*") = .ok ⟨p, p.postorder, 2⟩ :=
    parse_of_toOption (by with_unfolding_all decide)
  refine ⟨hput, hnorm, ⟨_, hparse, rfl⟩, ?_⟩
  intro q hq hparen htext
  have hlast := getLast?_spelling hq hparen
  rw [htext] at hlast
  revert hlast
  decide

/-- A marker before which no end of the text balances becomes a closing bracket, and no opening one
is put in. If the pattern is read all the same, the bracket ends a repetition that the source begins
itself. So a source in which no more `<` than `>` stand before the marker is refused under every
policy. -/
theorem refused_of_not_balanced (hs : s.toList = before ++ '*' :: after) (hb : '*' ∉ before)
    (hnone : ∀ w, w <:+ before → ¬ Balanced w) :
    normalize s = String.ofList (before ++ '>' :: after) ∧
      (∀ r, parse (normalize s) = .ok r → ∃ u q, before = u ++ '<' :: q.spelling ∧
        ⟨u.length, many q⟩ ∈ placed 0 r.root) ∧
      (before.count '<' ≤ before.count '>' → ∃ e, parse (normalize s) = .error e ∧
        ∀ policy, (compile s policy).1 = .error (.unreadable s e)) := by
  have hnorm : normalize s = String.ofList (before ++ '>' :: after) := by
    rw [normalize_of_marker hs hb, openRepetition_eq_self_iff.mpr hnone]
  refine ⟨hnorm, ?_, ?_⟩
  · intro r h
    obtain ⟨hfits, htext, -⟩ := parse_eq_ok.mp h
    rw [hnorm, String.toList_ofList] at htext
    exact exists_star_of_closing hfits.1 htext
  · intro hcount
    cases h : parse (normalize s) with
    | error e => exact ⟨e, rfl, fun policy => by rw [compile_of_error h]⟩
    | ok r =>
      obtain ⟨hfits, htext, -⟩ := parse_eq_ok.mp h
      have hnested : Nested .star ((before ++ ['>']) ++ after) := by
        have hroot : Nested .star r.root.spelling := nested_spelling hfits.1
        rw [htext, hnorm, String.toList_ofList] at hroot
        simpa using hroot
      have hle : (before ++ ['>']).count '>' ≤ (before ++ ['>']).count '<' := hnested.close_le
      rw [List.count_append, List.count_append] at hle
      have hzero : ['>'].count '<' = 0 := rfl
      have hone : ['>'].count '>' = 1 := rfl
      omega

/-- Two groups are open before the marker and none is complete behind them. -/
theorem refused_of_not_balanced_open_groups :
    "(a)((b*|c".toList = "(a)((b".toList ++ '*' :: "|c".toList ∧
      (∀ w, w <:+ "(a)((b".toList → ¬ Balanced w) ∧
      ∃ e, parse (normalize "(a)((b*|c") = .error e ∧
        ∀ policy, (compile "(a)((b*|c" policy).1 = .error (.unreadable "(a)((b*|c" e) := by
  have hs : "(a)((b*|c".toList = "(a)((b".toList ++ '*' :: "|c".toList := by decide
  have hb : '*' ∉ "(a)((b".toList := by decide
  have hnone : ∀ w, w <:+ "(a)((b".toList → ¬ Balanced w :=
    openRepetition_eq_self_iff.mp (by decide)
  obtain ⟨-, -, hrefused⟩ := refused_of_not_balanced hs hb hnone
  exact ⟨hs, hnone, hrefused (by decide)⟩

/-- In a repetition that the source begins itself, the marker is taken for the end of it. -/
theorem accepted_in_open_repetition :
    "<a*".toList = "<a".toList ++ ['*'] ∧ (∀ w, w <:+ "<a".toList → ¬ Balanced w) ∧
      ∃ r, parse (normalize "<a*") = .ok r ∧ r.root = .many (.char 'a') ∧
        ∀ policy, ∃ c, (compile "<a*" policy).1 = .ok c := by
  have hs : "<a*".toList = "<a".toList ++ ['*'] := by decide
  have hnone : ∀ w, w <:+ "<a".toList → ¬ Balanced w :=
    openRepetition_eq_self_iff.mp (by decide)
  let p : Pattern := .many (.char 'a')
  have hparse : parse (normalize "<a*") = .ok ⟨p, p.postorder, 1⟩ :=
    parse_of_toOption (by with_unfolding_all decide)
  have hv : (Validation.ofParsed ⟨p, p.postorder, 1⟩).isValid = true := by decide
  refine ⟨hs, hnone, _, hparse, rfl, fun policy => ?_⟩
  rw [compile_of_valid hparse hv]
  exact ⟨_, rfl⟩

end CaptureGrammar.Pattern
