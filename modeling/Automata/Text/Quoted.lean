import Automata.Text.Hidden

/-!
# Quoted text

Text is quoted so that it can be told exactly what it holds: the enclosing quote and the backslash
are escaped, and so is every character that does not show.
-/

set_option autoImplicit false

namespace Automata

namespace Text

/-- A character by its number, in hexadecimal digits. -/
def numbered (c : Char) : List Char :=
  "\\u\x7b".toList ++ Nat.toDigits 16 c.toNat ++ "\x7d".toList

/-- A character as it is written between two of `quote`. -/
def escaped (quote c : Char) : List Char :=
  if c = '\x00' then ['\\', '0']
  else if c = '\t' then ['\\', 't']
  else if c = '\r' then ['\\', 'r']
  else if c = '\n' then ['\\', 'n']
  else if c = '\\' ∨ c = quote then ['\\', c]
  else if isHidden c then numbered c
  else [c]

/-- The text between two of `quote`. -/
def quoted (quote : Char) (l : List Char) : String :=
  String.ofList (quote :: l.flatMap (escaped quote) ++ [quote])

end Text

end Automata
