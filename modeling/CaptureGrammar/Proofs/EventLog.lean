import CaptureGrammar.Proofs.CompletionRecords
import CaptureGrammar.Proofs.FirstMarker
import CaptureGrammar.Proofs.NodeCounts
import CaptureGrammar.Proofs.NodeRules
import CaptureGrammar.Proofs.OpenedGroups
import CaptureGrammar.Proofs.Policies

/-!
The events of a run, told from what the run yields.

Groups are reported as they are opened and nonterminals as they are allocated, far apart from each
other. In the tree and in the table that result, both stand in the order of the reports.
-/
namespace CaptureGrammar

open Compilation (grammarEvents readingEvents)
open Grammar (ofPattern)
open Pattern (Parsed normalize openedGroups parse)

variable {root p : Pattern} {ps : List Pattern} {k : Counts} {s : String} {r : Parsed}

/-! ### Allocated nonterminals -/

/-- Whether a nonterminal is that of a counted node. -/
def Nonterminal.isCounted : Nonterminal → Bool
  | .node .. => true
  | .start | .capture _ => false

/-- A node gets a counted nonterminal by being counted, and then it defines it. -/
theorem filter_isCounted_defined (x : Visit) : x.defined.filter Nonterminal.isCounted =
    (x.node.category?.map x.counts.fresh).toList := by
  obtain ⟨k, p⟩ := x
  cases p with
  | group id p => cases id <;> rfl
  | _ => rfl

theorem filter_isCounted_definedNames (k : Counts) (ps : List Pattern) :
    (definedNames k ps).filter Nonterminal.isCounted = allocations k ps := by
  rw [definedNames, allocations, List.filter_flatMap, List.filterMap_eq_flatMap_toList]
  exact List.flatMap_congr fun x _ => filter_isCounted_defined x

/-- The nonterminals are allocated in the order in which their rules stand. -/
theorem reverse_allocated_ofPattern (hids : root.captures.Nodup)
    (hcounts : ∀ c, root.nodes.countP (·.category? = some c) ≤ UInt32.size) :
    (Builder.ofPattern root).allocated.reverse =
      ((ofPattern root).rules.map Rule.lhs).filter Nonterminal.isCounted := by
  have hlhs : (ofPattern root).rules.map Rule.lhs = .start :: definedNames {} root.nodes := by
    rw [Grammar.map_lhs_ofPattern, eraseDups_of_nodup (nodup_definedNames hids hcounts)]
  rw [Builder.reverse_allocated, hlhs, ← filter_isCounted_definedNames]
  rfl

/-! ### Opened groups -/

theorem openedGroups_eq_range (hn : s.length < UInt32.size) :
    openedGroups s = (List.range' 1 (openedGroups s).length).map UInt32.ofNat := by
  rw [← Pattern.map_toNat_openedGroups hn, List.map_map]
  simp [Function.comp_def]

/-- The events of reading, of which the source decides the first. -/
theorem readingEvents_eq (hn : (normalize s).length < UInt32.size) : readingEvents s =
    (if '*' ∈ s.toList then [Event.rewroteMarker s (normalize s)] else []) ++
      (List.range' 1 (openedGroups (normalize s)).length).map
        fun i => Event.openedGroup (.ofNat i) := by
  have hmarker : (Pattern.hasMarker s = true) = ('*' ∈ s.toList) := by
    simp [Pattern.hasMarker]
  have hgroups := congrArg (List.map Event.openedGroup) (openedGroups_eq_range hn)
  rw [List.map_map] at hgroups
  simp only [readingEvents, hmarker]
  rw [hgroups]
  rfl

/-! ### Whole runs -/

/-- The events of a run on a pattern that is read, up to the verdict. -/
theorem parsedEvents_eq (h : parse (normalize s) = .ok r)
    (hn : (normalize s).length < UInt32.size) : parsedEvents s r =
      (if '*' ∈ s.toList then [Event.rewroteMarker s (normalize s)] else []) ++
        (List.range' 1 r.groupCount.toNat).map (fun i => Event.openedGroup (.ofNat i)) ++
        [Event.parsed r.groupCount r.root.nodes.length] := by
  have hcaptures : r.root.captures.length < UInt32.size :=
    Nat.lt_of_le_of_lt (Pattern.counts_of_parse h).1 hn
  have hgroups : (openedGroups (normalize s)).length = r.groupCount.toNat := by
    rw [Pattern.openedGroups_of_parse h, Pattern.toNat_groupCount h hcaptures]
  obtain ⟨-, -, -, hdone, -⟩ := Pattern.parse_eq_ok.mp h
  have hnodes : r.completions.length = r.root.nodes.length := by
    rw [hdone, ← Pattern.map_completion_completed, List.length_map,
      r.root.completed_perm_nodes.length_eq]
  rw [parsedEvents, readingEvents_eq hn, hgroups, hnodes]

theorem grammarEvents_eq (h : parse s = .ok r) (hn : s.length < UInt32.size) :
    grammarEvents r.root =
      (((ofPattern r.root).rules.map Rule.lhs).filter Nonterminal.isCounted).map Event.allocated ++
        [Event.compiled (ofPattern r.root).rules.length] ++
        (ofPattern r.root).undefined.map Event.danglingReference := by
  obtain ⟨hcaptures, hcounts⟩ := Pattern.counts_of_parse h
  have hids : r.root.captures.Nodup :=
    Pattern.nodup_captures_of_length h (Nat.lt_of_le_of_lt hcaptures hn)
  rw [← reverse_allocated_ofPattern hids fun c => Nat.le_of_lt (Nat.lt_of_le_of_lt (hcounts c) hn)]
  rfl

theorem compile_advisory_of_ok (h : parse (normalize s) = .ok r) :
    compile s .advisory = (.ok (.ofParsed s r), parsedEvents s r ++ [.validated (.ofParsed r)] ++
      (if (Validation.ofParsed r).isValid then []
        else [.acceptedInvalid (Validation.ofParsed r).failed]) ++ grammarEvents r.root) := by
  cases hv : (Validation.ofParsed r).isValid with
  | true =>
    rw [compile_of_valid h hv]
    simp
  | false =>
    rw [compile_advisory_of_not_valid h hv]
    simp

/-- A run that goes through reports, in this order: the marker if there is one, the groups of the
tree by their numbers, the sizes of the tree, the verdict, the acceptance if the pattern is not
valid, the counted nonterminals in the order of their rules, the size of the grammar, and what has
no rule. Where reading fails, the run has reported no more than the marker and some groups. -/
theorem compile_events (hs : s.length < UInt32.size - 1) :
    (∀ c, (compile s .advisory).1 = .ok c → (compile s .advisory).2 =
      (if '*' ∈ s.toList then [Event.rewroteMarker s c.normalized] else []) ++
        (List.range' 1 c.parsed.groupCount.toNat).map (fun i => Event.openedGroup (.ofNat i)) ++
        [Event.parsed c.parsed.groupCount c.parsed.root.nodes.length,
          Event.validated c.validation] ++
        (if c.validation.isValid then [] else [Event.acceptedInvalid c.validation.failed]) ++
        ((c.grammar.rules.map Rule.lhs).filter Nonterminal.isCounted).map Event.allocated ++
        [Event.compiled c.grammar.rules.length] ++
        c.grammar.undefined.map Event.danglingReference) ∧
    ∀ e, parse (normalize s) = .error e → ∃ n < UInt32.size, ∀ policy, (compile s policy).2 =
      (if '*' ∈ s.toList then [Event.rewroteMarker s (normalize s)] else []) ++
        (List.range' 1 n).map fun i => Event.openedGroup (.ofNat i) := by
  have hn : (normalize s).length < UInt32.size := by
    have hle := Pattern.length_normalize_le s
    omega
  constructor
  · intro c hc
    cases h : parse (normalize s) with
    | error e =>
      rw [compile_of_error h] at hc
      cases hc
    | ok r =>
      rw [compile_advisory_of_ok h] at hc ⊢
      cases hc
      rw [parsedEvents_eq h hn, grammarEvents_eq h hn]
      simp only [List.append_assoc, List.cons_append, List.nil_append]
      rfl
  · intro e h
    refine ⟨_, Nat.lt_of_le_of_lt (Pattern.length_openedGroups_le _) hn, fun policy => ?_⟩
    rw [compile_of_error h, readingEvents_eq hn]

/-- A pattern with a marker that is read, refers to its group too early and to a group that it does
not have, and one that breaks off inside its second group. -/
theorem compile_events_marker :
    "(\\1)(a)*(?5)".length < UInt32.size - 1 ∧ "(a)*(b".length < UInt32.size - 1 ∧
    (∃ c, (compile "(\\1)(a)*(?5)" .advisory).1 = .ok c ∧
      (compile "(\\1)(a)*(?5)" .advisory).2 =
        [.rewroteMarker "(\\1)(a)*(?5)" "(\\1)<(a)>(?5)", .openedGroup 1, .parsed 1 6,
          .validated ⟨true, false⟩, .acceptedInvalid [.referenceOrder],
          .allocated (.node .concat 1), .allocated (.node .star 1), .allocated (.node .char 1),
          .compiled 5, .danglingReference (.capture 5)]) ∧
    ∃ e, parse (normalize "(a)*(b") = .error e ∧ ∃ n < UInt32.size, ∀ policy,
      (compile "(a)*(b" policy).2 = [.rewroteMarker "(a)*(b" "<(a)>(b"] ++
        (List.range' 1 n).map fun i => .openedGroup (.ofNat i) := by
  let p : Pattern := .concat [.strRef 1, .many (.group (some 1) (.char 'a')), .exprRef 5]
  have hread : "(\\1)(a)*(?5)".length < UInt32.size - 1 := by decide
  have hbroken : "(a)*(b".length < UInt32.size - 1 := by decide
  have hparse : parse (normalize "(\\1)(a)*(?5)") = .ok ⟨p, p.postorder, 2⟩ :=
    Pattern.parse_of_toOption (by with_unfolding_all decide)
  have hv : (Validation.ofParsed ⟨p, p.postorder, 2⟩).isValid = false := by decide
  have hc := congrArg Prod.fst (compile_advisory_of_not_valid hparse hv)
  obtain ⟨e, he⟩ : ∃ e, parse (normalize "(a)*(b") = .error e :=
    Pattern.exists_error_of_toOption (by with_unfolding_all decide)
  obtain ⟨n, hn, hevents⟩ := (compile_events hbroken).2 e he
  have hmarker : (if '*' ∈ "(a)*(b".toList then [Event.rewroteMarker "(a)*(b" (normalize "(a)*(b")]
      else []) = [.rewroteMarker "(a)*(b" "<(a)>(b"] := by decide
  refine ⟨hread, hbroken, ⟨_, hc, ((compile_events hread).1 _ hc).trans (by decide)⟩,
    e, he, n, hn, fun policy => ?_⟩
  rw [hevents policy, hmarker]

end CaptureGrammar
