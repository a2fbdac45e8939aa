import CaptureGrammar.Annotated.Drawing
import CaptureGrammar.Proofs.SummaryText

/-!
Drawings show the columns, connectors and labels of their lines.

A label may quote any character, box-drawing ones too, but it stands behind the first connector of
its line and never breaks the line.
-/
namespace CaptureGrammar.Annotated

variable {a b p : Annotated} {ps : List Annotated} {bars bars' : List Bool} {last last' : Bool}
  {l l' : Line} {ls ls' : List Line} {cs ds u v : List Char} {n m : Nat} {len : Option Nat}
  {id : GroupId} {min : UInt32} {max : Option UInt32}

/-! ### Labels -/

def labelChars (a : Annotated) : List Char := a.label.toList

/-- How the label of a group tells its number. -/
def groupNote : Option GroupId → List Char
  | some id => "id=".toList ++ (toString id).toList
  | none => "?:".toList

@[simp] theorem labelChars_char {c : Char} :
    (char c n).labelChars = "Char (".toList ++ ((Text.charLiteral c).toList ++ [')']) := by
  change ("Char (" ++ Text.charLiteral c ++ ")").toList = _
  simp

@[simp] theorem labelChars_concat : (concat ps len).labelChars = "Concat".toList := rfl

@[simp] theorem labelChars_alt : (alt ps).labelChars = "Alt".toList := rfl

@[simp] theorem labelChars_group {id : Option GroupId} :
    (group id p len).labelChars = "Group (".toList ++ (groupNote id ++ [')']) := by
  cases id with
  | none =>
    change "Group (?:)".toList = _
    simp [groupNote]
  | some id =>
    change ("Group (id=" ++ toString id ++ ")").toList = _
    simp [groupNote]

@[simp] theorem labelChars_star : (star p min max).labelChars =
    "Star (min=".toList ++ ((toString min).toList ++
      ',' :: (" max=".toList ++ (numberOr '∞' [] max ++ [')']))) := by
  change ("Star (min=" ++ toString min ++ ", max=" ++ boundText max ++ ")").toList = _
  simp [toList_boundText]

@[simp] theorem labelChars_exprRef :
    (exprRef id).labelChars = "ExprRef (id=".toList ++ ((toString id).toList ++ [')']) := by
  change ("ExprRef (id=" ++ toString id ++ ")").toList = _
  simp

@[simp] theorem labelChars_strRef :
    (strRef id).labelChars = "StrRef (id=".toList ++ ((toString id).toList ++ [')']) := by
  change ("StrRef (id=" ++ toString id ++ ")").toList = _
  simp

theorem readable_groupNote (id : Option GroupId) : Readable Stops groupNote id := by
  intro id' u v hu hv h
  cases id with
  | none =>
    cases id' with
    | none => exact ⟨rfl, List.append_cancel_left h⟩
    | some id' => simp [groupNote] at h
  | some id =>
    cases id' with
    | none => simp [groupNote] at h
    | some id' =>
      simp only [groupNote, List.append_assoc, List.append_cancel_left_eq] at h
      obtain ⟨rfl, huv⟩ := readable_number id hu hv h
      exact ⟨rfl, huv⟩

/-- A label tells all of its node but the length and the children. -/
theorem eq_of_label (hlabel : a.label = b.label) (hlength : a.length? = b.length?)
    (hchildren : a.children = b.children) : a = b := by
  have h : a.labelChars = b.labelChars := congrArg String.toList hlabel
  cases a with
  | char c n =>
    cases b with
    | char d m =>
      simp only [labelChars_char, List.append_cancel_left_eq] at h
      obtain ⟨rfl, -⟩ := Text.readable_charLiteral c trivial trivial h
      cases hlength
      rfl
    | _ => simp at h
  | concat ps n =>
    cases b with
    | concat qs m =>
      cases hlength
      cases hchildren
      rfl
    | _ => simp at h
  | alt ps =>
    cases b with
    | alt qs =>
      cases hchildren
      rfl
    | _ => simp at h
  | group id p n =>
    cases b with
    | group id' q m =>
      simp only [labelChars_group, List.append_cancel_left_eq] at h
      obtain ⟨rfl, -⟩ := readable_groupNote id stops_close stops_close h
      cases hlength
      cases hchildren
      rfl
    | _ => simp at h
  | star p min max =>
    cases b with
    | star q min' max' =>
      simp only [labelChars_star, List.append_cancel_left_eq] at h
      obtain ⟨rfl, hmax⟩ := readable_number min stops_comma stops_comma h
      simp only [List.cons.injEq, true_and, List.append_cancel_left_eq] at hmax
      obtain ⟨rfl, -⟩ := readable_numberOr rfl max stops_close stops_close hmax
      cases hchildren
      rfl
    | _ => simp at h
  | exprRef id =>
    cases b with
    | exprRef id' =>
      simp only [labelChars_exprRef, List.append_cancel_left_eq] at h
      obtain ⟨rfl, -⟩ := readable_number id stops_close stops_close h
      rfl
    | _ => simp at h
  | strRef id =>
    cases b with
    | strRef id' =>
      simp only [labelChars_strRef, List.append_cancel_left_eq] at h
      obtain ⟨rfl, -⟩ := readable_number id stops_close stops_close h
      rfl
    | _ => simp at h

/-- What a drawing notes below a node that has a length. -/
def lengthLabel (n : Nat) : String := "[length=" ++ toString n ++ "]"

theorem lengthLabel_inj (h : lengthLabel n = lengthLabel m) : n = m := by
  have hdigits := congrArg String.toList h
  simp [lengthLabel] at hdigits
  exact eq_of_toDigits_eq hdigits

theorem label_ne_lengthLabel : a.label ≠ lengthLabel n := by
  intro h
  have hchars : a.labelChars = "[length=".toList ++ (Nat.toDigits 10 n ++ [']']) := by
    simp [labelChars, h, lengthLabel]
  cases a <;> simp at hchars

theorem newline_notMem_digits : '\n' ∉ Nat.toDigits 10 n :=
  fun h => absurd (isDigit_of_mem_toDigits h) (by decide)

theorem newline_notMem_charLiteral {c : Char} : '\n' ∉ (Text.charLiteral c).toList :=
  fun h => absurd (Text.isPrintable_of_mem_charLiteral h) (by decide)

theorem newline_notMem_label (a : Annotated) : '\n' ∉ a.label.toList := by
  change '\n' ∉ a.labelChars
  cases a with
  | group id p n => cases id <;> simp [groupNote, toList_toString, newline_notMem_digits]
  | star p min max => cases max <;> simp [numberOr, toList_toString, newline_notMem_digits]
  | _ => simp [toList_toString, newline_notMem_digits, newline_notMem_charLiteral]

theorem newline_notMem_of_mem_ownLines (h : l ∈ ownLines bars last a) : '\n' ∉ l.label.toList := by
  rcases List.mem_cons.mp h with rfl | h
  · exact newline_notMem_label a
  · cases hn : a.length? with
    | none => simp [hn] at h
    | some n =>
      rw [hn, List.mem_singleton] at h
      simp [h, newline_notMem_digits]

/-! ### Lines -/

/-- The column with or without a bar. -/
def column : Bool → List Char
  | true => ['│', ' ', ' ', ' ']
  | false => [' ', ' ', ' ', ' ']

def connector : Bool → List Char
  | true => ['└', '─', '─', ' ']
  | false => ['├', '─', '─', ' ']

theorem Line.toList_text (l : Line) : l.text.toList =
    l.bars.flatMap column ++ (connector l.last ++ (l.label.toList ++ ['\n'])) := by
  have hbars : (String.join (l.bars.map fun bar => if bar then "│   " else "    ")).toList =
      l.bars.flatMap column := by
    rw [String.toList_join, List.flatMap_map]
    exact congrArg (l.bars.flatMap ·) (funext fun bar => by cases bar <;> rfl)
  have hconnector : (if l.last then "└── " else "├── ").toList = connector l.last := by
    cases l.last <;> rfl
  simp only [text, String.toList_append, hbars, hconnector, List.append_assoc]
  rfl

theorem column_append_inj {bar bar' : Bool} :
    column bar ++ u = column bar' ++ v ↔ bar = bar' ∧ u = v := by
  cases bar <;> cases bar' <;> simp [column]

theorem connector_append_inj :
    connector last ++ u = connector last' ++ v ↔ last = last' ∧ u = v := by
  cases last <;> cases last' <;> simp [connector]

theorem column_append_ne {bar : Bool} : column bar ++ u ≠ connector last ++ v := by
  cases bar <;> cases last <;> simp [column, connector]

/-- The columns end where the first connector stands. -/
theorem columns_inj (h : bars.flatMap column ++ (connector last ++ u) =
    bars'.flatMap column ++ (connector last' ++ v)) : bars = bars' ∧ last = last' ∧ u = v := by
  induction bars generalizing bars' with
  | nil =>
    cases bars' with
    | nil => exact ⟨rfl, connector_append_inj.mp h⟩
    | cons bar bars' =>
      rw [List.flatMap_cons, List.append_assoc] at h
      exact absurd h.symm column_append_ne
  | cons bar bars ih =>
    rw [List.flatMap_cons, List.append_assoc] at h
    cases bars' with
    | nil => exact absurd h column_append_ne
    | cons bar' bars' =>
      rw [List.flatMap_cons, List.append_assoc] at h
      obtain ⟨rfl, hrest⟩ := column_append_inj.mp h
      obtain ⟨rfl, hlast⟩ := ih hrest
      exact ⟨rfl, hlast⟩

theorem eq_of_newline (hcs : '\n' ∉ cs) (hds : '\n' ∉ ds) (h : cs ++ '\n' :: u = ds ++ '\n' :: v) :
    cs = ds ∧ u = v := by
  induction cs generalizing ds with
  | nil =>
    cases ds with
    | nil => exact ⟨rfl, (List.cons.inj h).2⟩
    | cons d ds => exact absurd ((List.cons.inj h).1 ▸ List.mem_cons_self) hds
  | cons c cs ih =>
    cases ds with
    | nil => exact absurd ((List.cons.inj h).1 ▸ List.mem_cons_self) hcs
    | cons d ds =>
      rw [List.mem_cons, not_or] at hcs hds
      obtain ⟨rfl, hrest⟩ := List.cons.inj h
      obtain ⟨rfl, huv⟩ := ih hcs.2 hds.2 hrest
      exact ⟨rfl, huv⟩

theorem Line.text_append_inj (hl : '\n' ∉ l.label.toList) (hl' : '\n' ∉ l'.label.toList)
    (h : l.text.toList ++ u = l'.text.toList ++ v) : l = l' ∧ u = v := by
  cases l with
  | mk bars last label =>
    cases l' with
    | mk bars' last' label' =>
      simp only [toList_text, List.append_assoc, List.singleton_append] at h
      obtain ⟨rfl, rfl, hrest⟩ := columns_inj h
      obtain ⟨hlabel, huv⟩ := eq_of_newline hl hl' hrest
      exact ⟨congrArg _ (String.toList_inj.mp hlabel), huv⟩

theorem Line.text_ne_empty (l : Line) : l.text.toList ≠ [] := by
  simp [toList_text]

/-- Lines none of whose labels has a line break are told by their text. -/
theorem eq_of_text_eq (hls : ∀ l ∈ ls, '\n' ∉ l.label.toList)
    (hls' : ∀ l ∈ ls', '\n' ∉ l.label.toList)
    (h : String.join (ls.map Line.text) = String.join (ls'.map Line.text)) : ls = ls' := by
  have hchars : ls.flatMap (·.text.toList) = ls'.flatMap (·.text.toList) := by
    simpa [String.toList_join, List.flatMap_map] using congrArg String.toList h
  clear h
  induction ls generalizing ls' with
  | nil =>
    cases ls' with
    | nil => rfl
    | cons l' ls' => exact absurd (List.append_eq_nil_iff.mp hchars.symm).1 l'.text_ne_empty
  | cons l ls ih =>
    cases ls' with
    | nil => exact absurd (List.append_eq_nil_iff.mp hchars).1 l.text_ne_empty
    | cons l' ls' =>
      obtain ⟨hl, hrest⟩ := List.forall_mem_cons.mp hls
      obtain ⟨hl', hrest'⟩ := List.forall_mem_cons.mp hls'
      obtain ⟨rfl, htail⟩ := Line.text_append_inj hl hl' hchars
      rw [ih hrest hrest' htail]

end CaptureGrammar.Annotated
