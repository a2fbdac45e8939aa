/-! JSON values whose objects keep the order of their fields, and their two written forms. -/
namespace CaptureGrammar

/-- The JSON values that have integers for their only numbers, and no truth values. -/
inductive Json where
  | number (n : Int)
  | text (s : String)
  | array (items : List Json)
  | object (fields : List (String × Json))
deriving Inhabited

namespace Json

/-- How `c` is written inside a JSON string. Only quotes, backslashes and the controls below the
space are escaped. -/
def escape (c : Char) : List Char :=
  if c = '"' ∨ c = '\\' then ['\\', c]
  else if c = '\x08' then ['\\', 'b']
  else if c = '\t' then ['\\', 't']
  else if c = '\n' then ['\\', 'n']
  else if c = '\x0c' then ['\\', 'f']
  else if c = '\r' then ['\\', 'r']
  else if c < ' ' then ['\\', 'u', '0', '0', (c.toNat / 16).digitChar, (c.toNat % 16).digitChar]
  else [c]

def string (s : String) : String := String.ofList ('"' :: s.toList.flatMap escape ++ ['"'])

mutual

/-- The value without any space. -/
def compact : Json → String
  | .number n => toString n
  | .text s => string s
  | .array items => "[" ++ ",".intercalate (compactItems items) ++ "]"
  | .object fields => "\x7b" ++ ",".intercalate (compactFields fields) ++ "\x7d"

def compactItems : List Json → List String
  | [] => []
  | v :: vs => compact v :: compactItems vs

def compactFields : List (String × Json) → List String
  | [] => []
  | (k, v) :: fs => (string k ++ ":" ++ compact v) :: compactFields fs

end

/-- The start of a line at nesting depth `depth`, two spaces to a level. -/
def newline (depth : Nat) : String := String.ofList ('\n' :: List.replicate (2 * depth) ' ')

/-- The items of an array or an object at nesting depth `depth` between their brackets, each on its
own line. Without items the brackets stand together. -/
def bracketed (depth : Nat) (opening closing : String) (items : List String) : String :=
  if items.isEmpty then opening ++ closing
  else
    opening ++ newline (depth + 1) ++ ("," ++ newline (depth + 1)).intercalate items ++
      newline depth ++ closing

mutual

/-- The value over several lines, where it stands at nesting depth `depth`. -/
def prettyAt (depth : Nat) : Json → String
  | .number n => toString n
  | .text s => string s
  | .array items => bracketed depth "[" "]" (prettyItems (depth + 1) items)
  | .object fields => bracketed depth "\x7b" "\x7d" (prettyFields (depth + 1) fields)

def prettyItems (depth : Nat) : List Json → List String
  | [] => []
  | v :: vs => prettyAt depth v :: prettyItems depth vs

def prettyFields (depth : Nat) : List (String × Json) → List String
  | [] => []
  | (k, v) :: fs => (string k ++ ": " ++ prettyAt depth v) :: prettyFields depth fs

end

def pretty (v : Json) : String := prettyAt 0 v

end Json

end CaptureGrammar
