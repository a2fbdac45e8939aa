import CaptureGrammar.Proofs.ExpressionReading
import CaptureGrammar.Proofs.OpenBrackets

/-!
Reading is local: what comes of it depends on the text that it takes, and on what stands behind that
text only in so far as reading has to end there.
-/
namespace CaptureGrammar.Pattern

variable {s t : Cursor} {r : Reader Pattern} {ends : List Char → Bool}

/-- Whether a reader that succeeds takes the same text, and makes the same of it, in front of all
texts for which `ends` holds, and in front of no others. What it completes comes on top of what was
complete before. -/
def Reader.IsLocal (ends : List Char → Bool) (r : Reader Pattern) : Prop :=
  ∀ ⦃s p t⦄, r s = .ok p t → ∃ w ds, w ≠ [] ∧ s.rest = w ++ t.rest ∧ ends t.rest = true ∧
    t.finished = ds ++ s.finished ∧
    ∀ rest, r { s with rest := w ++ rest } = .ok p { t with rest } ↔ ends rest = true

theorem Passage.Leads.before {w : Passage} (h : w.Leads s t) (rest : List Char) :
    w.Leads { s with rest := w.text ++ rest } { t with rest } :=
  ⟨rfl, h.numbered, h.nextId, h.finished, h.opened⟩

theorem isLocal_of_eq_ok {F : Pattern → Prop} (hF : ∀ p, F p → p.IsCanonical)
    (hr : ∀ s p t, r s = .ok p t ↔ F p ∧ p.passage.Leads s t ∧ ends t.rest = true) :
    r.IsLocal ends := by
  intro s p t h
  obtain ⟨hp, hlead, hend⟩ := (hr s p t).mp h
  refine ⟨p.spelling, p.postorder.reverse, spelling_ne_nil (hF p hp), hlead.rest, hend,
    hlead.finished, fun rest => ?_⟩
  rw [hr]
  exact ⟨fun h => h.2.2, fun hends => ⟨hp, hlead.before rest, hends⟩⟩

/-- An expression and a sequence are read without regard to what stands behind them, as long as they
end there. A count of the brackets that are open makes no difference to that, and is the same behind
them as in front of them. -/
theorem reading_isLocal (n : Nat) :
    (expression (interior n)).IsLocal endsExpression ∧
    (sequence (interior n)).IsLocal endsSequence ∧
    ∀ s t : Position, s.levels = n → ∀ p,
      (CountingReader.expression s = some (p, t) ↔
        expression (interior n) s.toCursor = .ok p t.toCursor ∧ t.depth = s.depth) ∧
      (CountingReader.sequence s = some (p, t) ↔
        sequence (interior n) s.toCursor = .ok p t.toCursor ∧ t.depth = s.depth) := by
  have hr := readsInside_interior n
  refine ⟨?_, ?_, ?_⟩
  · exact isLocal_of_eq_ok (fun _ hp => hp.1) fun _ _ _ => expression_eq_ok hr
  · refine isLocal_of_eq_ok (fun p (hp : p.Fits n ∧ p.IsBranch) => hp.1.1) fun s p t => ?_
    rw [sequence_eq_ok hr, and_assoc]
  · intro s t hs p
    obtain ⟨hexp, hseq⟩ := agrees_of_inside (agrees_inside n)
    rw [hexp s hs, hseq s hs]
    exact ⟨keep_eq_some_iff, keep_eq_some_iff⟩

/-- Two levels below the limit, in front of a `>`: a group with a repetition, and a reference. -/
theorem reading_isLocal_two_levels :
    let p := concat [.group (some 4) (.alt [.char 'a', .many (.char 'b')]), .strRef 1]
    let w := "(a|<b>)(\\1)".toList
    let s : Position := ⟨⟨w ++ ['>', 'c'], 4, [.char 'x'], [3, 2, 1]⟩, 254, by decide⟩
    let t : Position :=
      ⟨⟨['>', 'c'], 5, p.postorder.reverse ++ [.char 'x'], [4, 3, 2, 1]⟩, 254, by decide⟩
    s.levels = 2 ∧
    CountingReader.expression s = some (p, t) ∧ CountingReader.sequence s = some (p, t) ∧
    ∀ rest,
      (expression (interior 2) { s.toCursor with rest := w ++ rest } =
        .ok p { t.toCursor with rest } ↔ endsExpression rest = true) ∧
      (sequence (interior 2) { s.toCursor with rest := w ++ rest } =
        .ok p { t.toCursor with rest } ↔ endsSequence rest = true) := by
  intro p w s t
  have hcanon : p.IsCanonical := by
    simp [p, many, IsCanonical, AllCanonical, delimiters, spelling, spellingOfBranches]
  have hfits : p.Fits 2 := ⟨hcanon, by decide⟩
  have hlead : p.passage.Leads s.toCursor t.toCursor := ⟨rfl, ⟨rfl, trivial⟩, rfl, rfl, rfl⟩
  have hexp : expression (interior 2) s.toCursor = .ok p t.toCursor :=
    (expression_eq_ok (readsInside_interior 2)).mpr ⟨hfits, hlead, rfl⟩
  have hseq : sequence (interior 2) s.toCursor = .ok p t.toCursor :=
    (sequence_eq_ok (readsInside_interior 2)).mpr ⟨hfits, trivial, hlead, rfl⟩
  obtain ⟨hexpression, hsequence, hcount⟩ := reading_isLocal 2
  obtain ⟨v, -, -, hv, -, -, hexpLocal⟩ := hexpression hexp
  obtain ⟨v', -, -, hv', -, -, hseqLocal⟩ := hsequence hseq
  obtain rfl : w = v := List.append_cancel_right hv
  obtain rfl : w = v' := List.append_cancel_right hv'
  obtain ⟨hcountExp, hcountSeq⟩ := hcount s t rfl p
  exact ⟨rfl, hcountExp.mpr ⟨hexp, rfl⟩, hcountSeq.mpr ⟨hseq, rfl⟩,
    fun rest => ⟨hexpLocal rest, hseqLocal rest⟩⟩

end CaptureGrammar.Pattern
