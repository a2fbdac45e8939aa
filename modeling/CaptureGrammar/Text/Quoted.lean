import CaptureGrammar.Text.Printable

/-! Characters and strings as quoted literals: one visible line whatever they hold. -/
namespace CaptureGrammar.Text

/-- How `c` is written inside a literal that `quote` delimits. -/
def escape (quote c : Char) : List Char :=
  if c = '\x00' then ['\\', '0']
  else if c = '\t' then ['\\', 't']
  else if c = '\n' then ['\\', 'n']
  else if c = '\r' then ['\\', 'r']
  else if c = '\\' ∨ c = quote then ['\\', c]
  else if isPrintable c && !isCombining c then [c]
  else ['\\', 'u', '{'] ++ Nat.toDigits 16 c.toNat ++ ['}']

/-- The literal for `cs` between two `quote`s. -/
def quoted (quote : Char) (cs : List Char) : List Char :=
  quote :: cs.flatMap (escape quote) ++ [quote]

def charLiteral (c : Char) : String := String.ofList (quoted '\x27' [c])

def stringLiteral (s : String) : String := String.ofList (quoted '"' s.toList)

end CaptureGrammar.Text
