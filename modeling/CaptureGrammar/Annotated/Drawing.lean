import CaptureGrammar.Annotated.Basic
import CaptureGrammar.Pattern.Summary

/-! Annotated patterns drawn as trees, one node to a line. -/
namespace CaptureGrammar.Annotated

/-- A line of a drawing: the columns of its indent, the connector and what it connects to. -/
structure Line where
  /-- For each column, outermost first, whether a bar runs through it. -/
  bars : List Bool
  /-- Whether nothing follows at the end of the connector. -/
  last : Bool
  label : String
deriving DecidableEq

def Line.text (l : Line) : String :=
  String.join (l.bars.map fun bar => if bar then "│   " else "    ") ++
    (if l.last then "└── " else "├── ") ++ l.label ++ "\n"

def label : Annotated → String
  | .char c _ => "Char (" ++ Text.charLiteral c ++ ")"
  | .concat .. => "Concat"
  | .alt _ => "Alt"
  | .group (some id) .. => "Group (id=" ++ toString id ++ ")"
  | .group none .. => "Group (?:)"
  | .star _ min max => "Star (min=" ++ toString min ++ ", max=" ++ boundText max ++ ")"
  | .exprRef id => "ExprRef (id=" ++ toString id ++ ")"
  | .strRef id => "StrRef (id=" ++ toString id ++ ")"

/-- The lines of a node itself: its label and, below that, its length. -/
def ownLines (bars : List Bool) (last : Bool) (a : Annotated) : List Line :=
  ⟨bars, last, a.label⟩ :: match a.length? with
    | some n => [⟨bars ++ [!last], true, "[length=" ++ toString n ++ "]"⟩]
    | none => []

mutual

/-- The lines of a tree behind `bars`. It is `last` if no sibling follows. -/
def lines (bars : List Bool) (last : Bool) : Annotated → List Line
  | .concat ps n => ownLines bars last (.concat ps n) ++ childLines (bars ++ [!last]) ps
  | .alt ps => ownLines bars last (.alt ps) ++ childLines (bars ++ [!last]) ps
  | .group id p n => ownLines bars last (.group id p n) ++ lines (bars ++ [!last]) true p
  | .star p min max => ownLines bars last (.star p min max) ++ lines (bars ++ [!last]) true p
  | .char c n => ownLines bars last (.char c n)
  | .exprRef id => ownLines bars last (.exprRef id)
  | .strRef id => ownLines bars last (.strRef id)

/-- The lines of siblings. -/
def childLines (bars : List Bool) : List Annotated → List Line
  | [] => []
  | a :: as => lines bars as.isEmpty a ++ childLines bars as

end

def drawing (a : Annotated) : String := String.join ((lines [] true a).map Line.text)

end CaptureGrammar.Annotated
