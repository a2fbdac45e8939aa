import CaptureGrammar.Proofs.NonterminalName
import CaptureGrammar.Proofs.QuotedText
import CaptureGrammar.Proofs.WellFormed

/-!
The listing of a pattern's grammar tells all its rules.

A line tells its production, whatever characters stand in it. Where one rule ends and the next
begins is not marked, but in the grammar of a pattern no rule is without productions and no
nonterminal has two rules, so the left-hand sides tell that as well.
-/
namespace CaptureGrammar

open Grammar (ofPattern)
open Pattern (parse)

/-! ### Tables and their productions -/

namespace Rule

variable {ν : Type} [DecidableEq ν] {n : ν} {p : Production ν} {ps qs : List (Production ν)}
  {r : Rule ν} {rs ss : List (Rule ν)}

/-- The productions of a table in order, each with its nonterminal. -/
def listing (rs : List (Rule ν)) : List (ν × Production ν) :=
  rs.flatMap fun r => r.productions.map fun q => (r.lhs, q)

/-- The table after adding productions one by one. -/
def replay (rs : List (Rule ν)) (xs : List (ν × Production ν)) : List (Rule ν) :=
  xs.foldl (fun rs x => push x.1 x.2 rs) rs

theorem push_append (h : n ∉ rs.map lhs) : push n p (rs ++ ss) = rs ++ push n p ss := by
  induction rs with
  | nil => rfl
  | cons r rs ih =>
    rw [List.map_cons, List.mem_cons, not_or] at h
    rw [List.cons_append, push, if_neg (Ne.symm h.1), ih h.2, List.cons_append]

theorem replay_last (h : n ∉ rs.map lhs) :
    replay (rs ++ [⟨n, ps⟩]) (qs.map fun q => (n, q)) = rs ++ [⟨n, ps ++ qs⟩] := by
  induction qs generalizing ps with
  | nil => rw [List.append_nil]; rfl
  | cons q qs ih =>
    have hpush : push n q (rs ++ [⟨n, ps⟩]) = rs ++ [⟨n, ps ++ [q]⟩] := by
      rw [push_append h, push, if_pos rfl]
    calc replay (rs ++ [⟨n, ps⟩]) ((q :: qs).map fun q => (n, q))
        = replay (push n q (rs ++ [⟨n, ps⟩])) (qs.map fun q => (n, q)) := rfl
      _ = replay (rs ++ [⟨n, ps ++ [q]⟩]) (qs.map fun q => (n, q)) := by rw [hpush]
      _ = rs ++ [⟨n, ps ++ q :: qs⟩] := by rw [ih, ← List.append_cons]

theorem replay_rule (h : r.lhs ∉ rs.map lhs) (hr : r.productions ≠ []) :
    replay rs (r.productions.map fun q => (r.lhs, q)) = rs ++ [r] := by
  obtain ⟨n, ps⟩ := r
  cases ps with
  | nil => exact (hr rfl).elim
  | cons q qs =>
    have hpush : push n q rs = rs ++ [⟨n, [q]⟩] := by
      rw [← List.append_nil rs, push_append h, List.append_nil]
      rfl
    exact (congrArg (replay · (qs.map fun q => (n, q))) hpush).trans (replay_last h)

/-- A table without empty rules and without two rules for a nonterminal comes of its productions. -/
theorem replay_listing (hnodup : ((rs ++ ss).map lhs).Nodup) (hss : ∀ r ∈ ss, r.productions ≠ []) :
    replay rs (listing ss) = rs ++ ss := by
  induction ss generalizing rs with
  | nil => exact (List.append_nil rs).symm
  | cons r ss ih =>
    obtain ⟨hr, hss⟩ := List.forall_mem_cons.mp hss
    have hnew : r.lhs ∉ rs.map lhs := by
      rw [List.map_append, List.map_cons, List.nodup_append] at hnodup
      exact fun hmem => hnodup.2.2 _ hmem _ List.mem_cons_self rfl
    have hsplit : replay rs (listing (r :: ss)) =
        replay (replay rs (r.productions.map fun q => (r.lhs, q))) (listing ss) :=
      List.foldl_append
    rw [List.append_cons] at hnodup ⊢
    rw [hsplit, replay_rule hnew hr, ih hnodup hss]

theorem listing_inj (hrs : (rs.map lhs).Nodup) (hss : (ss.map lhs).Nodup)
    (hrs' : ∀ r ∈ rs, r.productions ≠ []) (hss' : ∀ r ∈ ss, r.productions ≠ [])
    (h : listing rs = listing ss) : rs = ss := by
  have hread : replay [] (listing rs) = rs := replay_listing hrs hrs'
  have hread' : replay [] (listing ss) = ss := replay_listing hss hss'
  rw [← hread, h, hread']

end Rule

/-! ### Lines -/

variable {u v : List Char}

def Symbol.chars (s : Symbol Nonterminal) : List Char := s.text.toList

@[simp] theorem Symbol.chars_terminal {c : Char} :
    (terminal c).chars = '\x27' :: (Text.escape '\x27' c ++ ['\x27']) := Text.toList_charLiteral

@[simp] theorem Symbol.chars_nonterminal {n : Nonterminal} :
    (nonterminal n).chars = n.nameChars := rfl

@[simp] theorem Symbol.chars_epsilon : epsilon.chars = ['ε'] := rfl

/-- A terminal begins with a quote, a nonterminal with a letter and the empty word with neither. -/
theorem readable_symbol (s : Symbol Nonterminal) : Readable Stops Symbol.chars s := by
  intro t u v hu hv h
  cases s with
  | terminal c =>
    cases t with
    | terminal d =>
      obtain ⟨rfl, huv⟩ := Text.readable_charLiteral c trivial trivial h
      exact ⟨rfl, huv⟩
    | nonterminal n =>
      rw [Symbol.chars_terminal] at h
      exact absurd h.symm (Nonterminal.nameChars_append_ne rfl)
    | epsilon => simp at h
  | nonterminal m =>
    cases t with
    | terminal d =>
      rw [Symbol.chars_terminal] at h
      exact absurd h (Nonterminal.nameChars_append_ne rfl)
    | nonterminal n =>
      obtain ⟨rfl, huv⟩ := m.readable_name hu hv h
      exact ⟨rfl, huv⟩
    | epsilon => exact absurd h (Nonterminal.nameChars_append_ne rfl)
  | epsilon =>
    cases t with
    | terminal d => simp at h
    | nonterminal n => exact absurd h.symm (Nonterminal.nameChars_append_ne rfl)
    | epsilon => exact ⟨rfl, List.append_cancel_left h⟩

theorem symbol_append_ne_newline (s : Symbol Nonterminal) : s.chars ++ u ≠ '\n' :: v := by
  cases s with
  | nonterminal n => exact Nonterminal.nameChars_append_ne rfl
  | terminal c => simp
  | epsilon => simp

/-- The line of a production. -/
def lineChars (x : Nonterminal × Production Nonterminal) : List Char :=
  x.1.nameChars ++ ' ' :: ("-> ".toList ++ ([' '].intercalate (x.2.map Symbol.chars) ++ ['\n']))

theorem toList_line (n : Nonterminal) (q : Production Nonterminal) :
    (toString n ++ " -> " ++ " ".intercalate (q.map Symbol.text) ++ "\n").toList =
      lineChars (n, q) := by
  have hsymbols : (q.map Symbol.text).map String.toList = q.map Symbol.chars := List.map_map
  simp only [String.toList_append, String.toList_intercalate, hsymbols, List.append_assoc]
  rfl

theorem toList_text (g : Grammar Nonterminal) :
    g.text.toList = (Rule.listing g.rules).flatMap lineChars := by
  simp only [Grammar.text, Rule.text, Rule.listing, String.toList_join, List.flatMap_map,
    List.flatMap_assoc, toList_line]

theorem readable_line (x : Nonterminal × Production Nonterminal) :
    Readable (fun _ => True) lineChars x := by
  have hspace : ∀ {u : List Char}, Stops (' ' :: u) := stops_cons.mpr rfl
  intro y u v _ _ h
  simp only [lineChars, List.append_assoc, List.cons_append, List.nil_append] at h
  obtain ⟨hlhs, hsymbols⟩ := x.1.readable_name hspace hspace h
  simp only [List.cons.injEq, true_and, List.append_cancel_left_eq] at hsymbols
  obtain ⟨hrhs, huv⟩ := intercalate_inj (fun s _ => readable_symbol s) rfl rfl (by decide)
    (fun s _ _ => symbol_append_ne_newline s) hsymbols
  exact ⟨Prod.ext hlhs hrhs, huv⟩

/-- The text of a grammar tells its productions, in order. -/
theorem listing_eq_of_text_eq {g g' : Grammar Nonterminal} (h : g.text = g'.text) :
    Rule.listing g.rules = Rule.listing g'.rules := by
  have hclose : ∀ x u v, lineChars x ++ u ≠ '\n' :: v := by
    intro x u v
    rw [lineChars, List.append_assoc]
    exact Nonterminal.nameChars_append_ne rfl
  have happend : (Rule.listing g.rules).flatMap lineChars ++ ['\n'] =
      (Rule.listing g'.rules).flatMap lineChars ++ ['\n'] := by
    rw [← toList_text, h, toList_text]
  exact (flatMap_inj (fun x _ => readable_line x) hclose (fun _ _ => trivial) happend).1

/-! ### Grammars of patterns -/

variable {s t : String} {r r' : Pattern.Parsed}

theorem productions_ne_nil_of_parse (h : parse s = .ok r) :
    ∀ x ∈ (ofPattern r.root).rules, x.productions ≠ [] :=
  fun _ hx => rule_productions_ne_nil (alt_nil_notMem_nodes h) hx

theorem Symbol.text_rename (s : Symbol Nonterminal) :
    (s.rename Nonterminal.name).text = s.text := by
  cases s <;> rfl

/-- Written names are listed as the nonterminals are. -/
theorem Grammar.text_rename (g : Grammar Nonterminal) :
    (g.rename Nonterminal.name).text = g.text := by
  have hsymbols : ∀ q : Production Nonterminal,
      (q.map (Symbol.rename Nonterminal.name)).map Symbol.text = q.map Symbol.text := by
    intro q
    rw [List.map_map]
    exact List.map_congr_left fun s _ => s.text_rename
  have hrule : ∀ r : Rule Nonterminal, (r.rename Nonterminal.name).text = r.text := by
    intro r
    simp only [Rule.text, Rule.rename, List.map_map, Function.comp_def, hsymbols]
    rfl
  simp only [text, rename, List.map_map, Function.comp_def, hrule]

theorem ofPattern_eq_of_text_eq (hs : parse s = .ok r) (ht : parse t = .ok r')
    (h : (ofPattern r.root).text = (ofPattern r'.root).text) :
    ofPattern r.root = ofPattern r'.root := by
  have hrules : (ofPattern r.root).rules = (ofPattern r'.root).rules :=
    Rule.listing_inj (Grammar.nodup_lhs_ofPattern _) (Grammar.nodup_lhs_ofPattern _)
      (productions_ne_nil_of_parse hs) (productions_ne_nil_of_parse ht) (listing_eq_of_text_eq h)
  exact congrArg (Grammar.mk .start) hrules

/-- The grammars of two patterns are listed alike only if they have the same rules in the same order
with the same productions, and so are the grammars with the written names. -/
theorem Grammar.text_ofPattern_inj (hs : parse s = .ok r) (ht : parse t = .ok r') :
    ((ofPattern r.root).text = (ofPattern r'.root).text ↔ ofPattern r.root = ofPattern r'.root) ∧
    (((ofPattern r.root).rename Nonterminal.name).text =
        ((ofPattern r'.root).rename Nonterminal.name).text ↔
      (ofPattern r.root).rename Nonterminal.name =
        (ofPattern r'.root).rename Nonterminal.name) := by
  refine ⟨⟨ofPattern_eq_of_text_eq hs ht, congrArg text⟩, ⟨fun h => ?_, congrArg text⟩⟩
  rw [text_rename, text_rename] at h
  rw [ofPattern_eq_of_text_eq hs ht h]

/-- A reference to the expression of a group and one to its text are listed alike, whatever
characters the group has: the grammar is the same. -/
theorem Grammar.text_ofPattern_inj_references : ∃ r r',
    parse "(S \n' ε)(?1)" = .ok r ∧ parse "(S \n' ε)(\\1)" = .ok r' ∧ r.root ≠ r'.root ∧
    ofPattern r.root = ofPattern r'.root := by
  let body : Pattern := .concat ("S \n' ε".toList.map .char)
  let p : Pattern := .concat [.group (some 1) body, .exprRef 1]
  let q : Pattern := .concat [.group (some 1) body, .strRef 1]
  have hp : parse "(S \n' ε)(?1)" = .ok ⟨p, p.postorder, 2⟩ :=
    Pattern.parse_of_toOption (by with_unfolding_all decide)
  have hq : parse "(S \n' ε)(\\1)" = .ok ⟨q, q.postorder, 2⟩ :=
    Pattern.parse_of_toOption (by with_unfolding_all decide)
  refine ⟨_, _, hp, hq, by decide, ?_⟩
  exact (text_ofPattern_inj hp hq).1.mp (by decide +kernel)

end CaptureGrammar
