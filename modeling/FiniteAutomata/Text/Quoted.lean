import FiniteAutomata.Text.Blank

/-!
Quoted text. Double quotes and backslashes are escaped, and so are control characters and the blanks
other than the space, so that a quoted text shows where it ends and is written on one line.
-/

namespace FiniteAutomata.Text.Quoted

/-- Whether a character is one of the controls of Unicode, U+0000 to U+001F and U+007F to U+009F. -/
def isControl (c : Char) : Bool := c.toNat < 0x20 || (0x7F ≤ c.toNat && c.toNat ≤ 0x9F)

/-- The characters that stand for `c` between the quotes. -/
def escape (c : Char) : List Char :=
  if c == '"' then ['\\', '"']
  else if c == '\\' then ['\\', '\\']
  else if c == '\t' then ['\\', 't']
  else if c == '\n' then ['\\', 'n']
  else if c == '\r' then ['\\', 'r']
  else if c == '\x00' then ['\\', '0']
  else if isControl c || (isBlank c && c != ' ') then
    ['\\', 'u', '\x7b'] ++ Nat.toDigits 16 c.toNat ++ ['\x7d']
  else [c]

def quote (s : String) : String := String.ofList ('"' :: (s.toList.flatMap escape ++ ['"']))

end FiniteAutomata.Text.Quoted
