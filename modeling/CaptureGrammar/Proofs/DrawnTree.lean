import CaptureGrammar.Proofs.AnnotatedTree
import CaptureGrammar.Proofs.DrawingText

/-!
Drawings tell the whole tree.

The lines below a node stand deeper than the line that follows them, and which of the siblings is
the last shows at its connector. Where the connectors and the bars stand is told by the addresses of
the nodes.
-/
namespace CaptureGrammar.Annotated

variable {a b root : Annotated} {as bs : List Annotated} {bars : List Bool} {last : Bool}
  {l : Line} {u v : List Line} {i n : Nat} {path : List Nat}

theorem lines_eq (bars : List Bool) (last : Bool) (a : Annotated) :
    lines bars last a = ownLines bars last a ++ childLines (bars ++ [!last]) a.children := by
  cases a <;> simp [lines, childLines, children]

/-! ### Connectors and bars -/

/-- Whether the node at an address has a sibling after it. -/
def hasLaterSibling (root : Annotated) (path : List Nat) : Bool :=
  path.getLast?.any fun i => (nodeAt children root (path.dropLast ++ [i + 1])).isSome

/-- The columns before the node at an address, one for each node above it. There is a bar in those
of the nodes that have later siblings. -/
def barsAt (root : Annotated) (path : List Nat) : List Bool :=
  (List.range path.length).map fun k => root.hasLaterSibling (path.take k)

/-- The lines of a node itself, by its address. -/
def linesAt (root : Annotated) (x : List Nat × Annotated) : List Line :=
  ownLines (root.barsAt x.1) (!root.hasLaterSibling x.1) x.2

theorem hasLaterSibling_snoc (h : nodeAt children root path = some a) :
    root.hasLaterSibling (path ++ [i]) = a.children[i + 1]?.isSome := by
  rw [hasLaterSibling, List.getLast?_concat, List.dropLast_concat, Option.any_some, nodeAt_snoc h]

theorem barsAt_snoc :
    root.barsAt (path ++ [i]) = root.barsAt path ++ [root.hasLaterSibling path] := by
  have habove : ∀ k ∈ List.range path.length,
      root.hasLaterSibling ((path ++ [i]).take k) = root.hasLaterSibling (path.take k) := by
    intro k hk
    rw [List.take_append_of_le_length (Nat.le_of_lt (List.mem_range.mp hk))]
  rw [barsAt, List.length_append, List.length_singleton, List.range_succ, List.map_append,
    List.map_congr_left habove, List.map_singleton, List.take_left]
  rfl

/-- Whether the lines of `a`, where it stands in the whole tree, are told by the addresses of its
nodes. -/
def DrawnIn (root a : Annotated) : Prop :=
  ∀ ⦃path⦄, nodeAt children root path = some a →
    lines (root.barsAt path) (!root.hasLaterSibling path) a = (places path a).flatMap root.linesAt

theorem childLines_eq_of (ha : nodeAt children root path = some a) (has : a.children.drop i = as)
    (h : ∀ c ∈ as, DrawnIn root c) :
    childLines (root.barsAt path ++ [root.hasLaterSibling path]) as =
      (placesFrom path i as).flatMap root.linesAt := by
  induction as generalizing i with
  | nil => rfl
  | cons c as ih =>
    obtain ⟨hc, hrest⟩ := List.forall_mem_cons.mp h
    have hchild : a.children[i]? = some c := by
      rw [← List.head?_drop, has, List.head?_cons]
    have hdrop : a.children.drop (i + 1) = as := by
      rw [← List.tail_drop, has, List.tail_cons]
    have hlast : as.isEmpty = !root.hasLaterSibling (path ++ [i]) := by
      rw [hasLaterSibling_snoc ha, ← List.head?_drop, hdrop]
      cases as <;> rfl
    have hlines := hc ((nodeAt_snoc ha).trans hchild)
    rw [barsAt_snoc] at hlines
    rw [childLines, placesFrom, List.flatMap_append, hlast, hlines, ih hdrop hrest]

theorem drawnIn (root a : Annotated) : DrawnIn root a := by
  induction a using childrenInduction with
  | node a ih =>
    intro path ha
    rw [lines_eq, Bool.not_not, childLines_eq_of ha List.drop_zero ih, places_eq]
    rfl

/-- The connectors and the bars of a drawing by the addresses of the nodes. -/
theorem lines_eq_places (root : Annotated) :
    lines [] true root = (places [] root).flatMap root.linesAt :=
  drawnIn root root (nodeAt_nil.mpr rfl)

theorem newline_notMem_lines (a : Annotated) : ∀ l ∈ lines [] true a, '\n' ∉ l.label.toList := by
  intro l hl
  rw [lines_eq_places, List.mem_flatMap] at hl
  obtain ⟨x, -, hl⟩ := hl
  exact newline_notMem_of_mem_ownLines hl

/-! ### Reading the lines -/

/-- Whether lines do not go on with one that stands at depth `n` or deeper. -/
def Above (n : Nat) (u : List Line) : Prop := ∀ l ∈ u.head?, l.bars.length < n

theorem above_nil : Above n [] := nofun

theorem above_cons : Above n (l :: u) ↔ l.bars.length < n := by simp [Above]

/-- The line with the length of a node. -/
def lengthLines (bars : List Bool) (len : Option Nat) : List Line :=
  len.toList.map fun n => ⟨bars, true, lengthLabel n⟩

theorem lines_eq_cons (bars : List Bool) (last : Bool) (a : Annotated) :
    lines bars last a = ⟨bars, last, a.label⟩ ::
      (lengthLines (bars ++ [!last]) a.length? ++ childLines (bars ++ [!last]) a.children) := by
  rw [lines_eq, ownLines]
  cases a.length? <;> rfl

theorem above_childLines (hu : Above bars.length u) :
    Above (bars.length + 1) (childLines bars as ++ u) := by
  cases as with
  | nil => exact fun l hl => Nat.lt_succ_of_lt (hu l hl)
  | cons a as =>
    rw [childLines, lines_eq_cons]
    exact above_cons.mpr (Nat.lt_succ_self _)

theorem ne_childLines_cons (hu : Above bars.length u) : u ≠ childLines bars (a :: as) ++ v := by
  rintro rfl
  rw [childLines, lines_eq_cons] at hu
  exact Nat.lt_irrefl _ (above_cons.mp hu)

theorem childLines_append_ne (hu : Above bars.length u) :
    childLines bars as ++ u ≠ ⟨bars, true, lengthLabel n⟩ :: v := by
  cases as with
  | nil =>
    rintro rfl
    exact Nat.lt_irrefl _ (above_cons.mp hu)
  | cons a as =>
    rw [childLines, lines_eq_cons]
    intro h
    exact label_ne_lengthLabel (congrArg Line.label (List.cons.inj h).1)

theorem lengthLines_inj {len len' : Option Nat} (hu : Above bars.length u)
    (hv : Above bars.length v)
    (h : lengthLines bars len ++ (childLines bars as ++ u) =
      lengthLines bars len' ++ (childLines bars bs ++ v)) :
    len = len' ∧ childLines bars as ++ u = childLines bars bs ++ v := by
  cases len with
  | none =>
    cases len' with
    | none => exact ⟨rfl, h⟩
    | some m => exact absurd h (childLines_append_ne hu)
  | some n =>
    cases len' with
    | none => exact absurd h.symm (childLines_append_ne hv)
    | some m =>
      obtain ⟨hline, hrest⟩ := List.cons.inj h
      exact ⟨congrArg some (lengthLabel_inj (congrArg Line.label hline)), hrest⟩

/-- Whether the lines of `a` tell `a` and where they end, as long as no deeper line follows. -/
def LinesTold (a : Annotated) : Prop :=
  ∀ ⦃b bars last u v⦄, Above (bars.length + 1) u → Above (bars.length + 1) v →
    lines bars last a ++ u = lines bars last b ++ v → a = b ∧ u = v

theorem childLines_inj (has : ∀ a ∈ as, LinesTold a) (hu : Above bars.length u)
    (hv : Above bars.length v) (h : childLines bars as ++ u = childLines bars bs ++ v) :
    as = bs ∧ u = v := by
  induction as generalizing bs with
  | nil =>
    cases bs with
    | nil => exact ⟨rfl, h⟩
    | cons b bs => exact absurd h (ne_childLines_cons hu)
  | cons a as ih =>
    cases bs with
    | nil => exact absurd h.symm (ne_childLines_cons hv)
    | cons b bs =>
      obtain ⟨ha, has⟩ := List.forall_mem_cons.mp has
      -- The trees are read with one and the same connector, and it shows in the first line of each.
      have hlast : as.isEmpty = bs.isEmpty := by
        rw [childLines, childLines, lines_eq_cons, lines_eq_cons] at h
        exact congrArg Line.last (List.cons.inj h).1
      rw [childLines, childLines, hlast, List.append_assoc, List.append_assoc] at h
      obtain ⟨rfl, hrest⟩ := ha (above_childLines hu) (above_childLines hv) h
      obtain ⟨rfl, huv⟩ := ih has hrest
      exact ⟨rfl, huv⟩

theorem linesTold (a : Annotated) : LinesTold a := by
  induction a using childrenInduction with
  | node a ih =>
    intro b bars last u v hu hv h
    rw [lines_eq_cons, lines_eq_cons, List.cons_append, List.cons_append, List.append_assoc,
      List.append_assoc] at h
    obtain ⟨hline, hbelow⟩ := List.cons.inj h
    have hdepth : (bars ++ [!last]).length = bars.length + 1 := List.length_append
    rw [← hdepth] at hu hv
    obtain ⟨hlength, hchildLines⟩ := lengthLines_inj hu hv hbelow
    obtain ⟨hchildren, huv⟩ := childLines_inj ih hu hv hchildLines
    exact ⟨eq_of_label (congrArg Line.label hline) hlength hchildren, huv⟩

theorem eq_of_drawing_eq (h : a.drawing = b.drawing) : a = b := by
  have hlines : lines [] true a ++ [] = lines [] true b ++ [] := by
    rw [eq_of_text_eq (newline_notMem_lines a) (newline_notMem_lines b) h]
  exact (linesTold a above_nil above_nil hlines).1

/-- A drawing tells the tree. It lists the nodes in the order of their addresses, each behind the
connector for the last child just when it is the root or has no later sibling, with a bar for just
those nodes above it that have later siblings. -/
theorem drawing_inj :
    (a.drawing = b.drawing ↔ a = b) ∧
    a.drawing = String.join (((a.places []).flatMap a.linesAt).map Line.text) ∧
    (∀ path c, (path, c) ∈ a.places [] ↔ nodeAt children a path = some c) ∧
    (a.places []).Pairwise (·.1 < ·.1) := by
  refine ⟨⟨eq_of_drawing_eq, congrArg drawing⟩, ?_, fun path c => mem_places_nil,
    pairwise_places a []⟩
  rw [drawing, lines_eq_places]

example : (alt [concat [char '│' 1] (some 1), strRef 1]).drawing =
    "└── Alt\n    ├── Concat\n    │   └── [length=1]\n    │   └── Char ('│')\n" ++
    "    │       └── [length=1]\n    └── StrRef (id=1)\n" := by
  decide +kernel

end CaptureGrammar.Annotated
