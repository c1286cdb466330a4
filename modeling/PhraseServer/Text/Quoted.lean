/-
  A single character between quotes, as messages show it.

  The quote and the backslash are escaped, so are NUL, tab, line feed and
  carriage return; any other character that does not print as itself is written
  by its code point.
-/
import PhraseServer.Text.Printable

namespace PhraseServer

/-- The lowercase hexadecimal digits of a number, without leading zeros. -/
def hexDigits (n : Nat) : List Char := Nat.toDigits 16 n

/-- The characters that stand for `c` between single quotes. -/
def escapeChar (c : Char) : List Char :=
  if c = '\x00' then ['\\', '0']
  else if c = '\t' then ['\\', 't']
  else if c = '\r' then ['\\', 'r']
  else if c = '\n' then ['\\', 'n']
  else if c = '\'' then ['\\', '\'']
  else if c = '\\' then ['\\', '\\']
  else if isPrintable c then [c]
  else ['\\', 'u', '{'] ++ hexDigits c.toNat ++ ['}']

/-- A character in single quotes. -/
def quotedChar (c : Char) : String := String.ofList (['\''] ++ escapeChar c ++ ['\''])

end PhraseServer
