import CaptureGrammar.Proofs.RoundTrip

/-! Reading gives each capturing group a number of its own, as long as the numbers last. -/
namespace CaptureGrammar

theorem eq_of_nodup_filterMap {α β : Type} {f : α → Option β} {l : List α} {x y : α} {b : β}
    (h : (l.filterMap f).Nodup) (hx : x ∈ l) (hy : y ∈ l) (hxb : f x = some b)
    (hyb : f y = some b) : x = y := by
  induction l with
  | nil => cases hx
  | cons a l ih =>
    have hrest : f a = some b → ∀ z ∈ l, f z ≠ some b := by
      intro ha z hz hzb
      rw [List.filterMap_cons_some ha, List.nodup_cons] at h
      exact h.1 (List.mem_filterMap.mpr ⟨z, hz, hzb⟩)
    have hl : (l.filterMap f).Nodup := h.sublist ((List.sublist_cons_self a l).filterMap f)
    rcases List.mem_cons.mp hx with hxa | hxl <;> rcases List.mem_cons.mp hy with hya | hyl
    · rw [hxa, hya]
    · exact (hrest (hxa ▸ hxb) y hyl hyb).elim
    · exact (hrest (hya ▸ hyb) x hxl hxb).elim
    · exact ih hl hxl hyl

namespace Pattern

variable {s : String} {r : Parsed} {p q q' : Pattern} {i id : GroupId} {is : List GroupId}

theorem range_of_numberedFrom (h : NumberedFrom i is) (hlen : i.toNat + is.length ≤ UInt32.size) :
    is.map UInt32.toNat = List.range' i.toNat is.length := by
  induction is generalizing i with
  | nil => rfl
  | cons j is ih =>
    obtain ⟨rfl, h⟩ := h
    rw [List.length_cons] at hlen
    rw [List.map_cons, List.length_cons, List.range'_succ]
    cases is with
    | nil => rfl
    | cons k ks =>
      have hj : (j + 1).toNat = j.toNat + 1 := by
        rw [UInt32.toNat_add, UInt32.toNat_one]
        simp only [List.length_cons, UInt32.size] at hlen
        omega
      rw [ih h (by omega), hj]

/-- The groups that are read have the numbers from 1 on, as long as these last. -/
theorem map_toNat_captures (h : parse s = .ok r) (hn : r.root.captures.length < UInt32.size) :
    r.root.captures.map UInt32.toNat = List.range' 1 r.root.captures.length := by
  obtain ⟨-, -, hnum, -⟩ := parse_eq_ok.mp h
  exact range_of_numberedFrom hnum (by rw [UInt32.toNat_one]; omega)

theorem nodup_captures_of_length (h : parse s = .ok r)
    (hn : r.root.captures.length < UInt32.size) : r.root.captures.Nodup := by
  have hnodup : (r.root.captures.map UInt32.toNat).Nodup :=
    map_toNat_captures h hn ▸ List.nodup_range' 1
  exact List.Pairwise.of_map UInt32.toNat (fun a b hne heq => hne (congrArg _ heq)) hnodup

theorem toNat_groupCount (h : parse s = .ok r) (hn : r.root.captures.length < UInt32.size) :
    r.groupCount.toNat = r.root.captures.length := by
  obtain ⟨-, -, -, -, hnext⟩ := parse_eq_ok.mp h
  rw [Parsed.groupCount, hnext, UInt32.add_comm, UInt32.add_sub_cancel]
  exact UInt32.toNat_ofNat_of_lt' hn

/-- The number of a group tells its body. -/
theorem body_eq_of_nodup_captures (h : p.captures.Nodup) (hq : .group (some id) q ∈ p.nodes)
    (hq' : .group (some id) q' ∈ p.nodes) : q = q' := by
  have heq : group (some id) q = group (some id) q' := eq_of_nodup_filterMap h hq hq' rfl rfl
  cases heq
  rfl

end Pattern

end CaptureGrammar
