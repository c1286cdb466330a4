/-
  Compact JSON text.

  Nothing stands between the parts of a value.  In strings the quote, the
  backslash and the control characters are escaped, the common ones by a letter;
  every other character stands for itself.
-/
import PhraseServer.Json
import PhraseServer.Number.Shortest

namespace PhraseServer

namespace Json

/-- A hexadecimal digit. -/
def hexDigit (n : Nat) : Char := Char.ofNat (if n < 10 then 48 + n else 87 + n)

/-- The characters that stand for `c` in a string. -/
def escaped (c : Char) : List Char :=
  if c = '"' then ['\\', '"']
  else if c = '\\' then ['\\', '\\']
  else if c = '\n' then ['\\', 'n']
  else if c = '\r' then ['\\', 'r']
  else if c = '\t' then ['\\', 't']
  else if c = '\x08' then ['\\', 'b']
  else if c = '\x0c' then ['\\', 'f']
  else if c.toNat < 0x20 then
    ['\\', 'u', '0', '0', hexDigit (c.toNat / 16), hexDigit (c.toNat % 16)]
  else [c]

/-- A string in quotes. -/
def quotedChars (s : String) : List Char := ['"'] ++ s.toList.flatMap escaped ++ ['"']

/-- The text of an integer. -/
def intChars (n : Int) : List Char :=
  if n < 0 then '-' :: Nat.toDigits 10 n.natAbs else Nat.toDigits 10 n.natAbs

/-- The text of a number. -/
def numberChars : Number → List Char
  | .int n => intChars n
  | .float negative x => if negative then '-' :: x.text else x.text

mutual

/-- The text of a value. -/
def chars : Json → List Char
  | .null => ['n', 'u', 'l', 'l']
  | .bool true => ['t', 'r', 'u', 'e']
  | .bool false => ['f', 'a', 'l', 's', 'e']
  | .num n => numberChars n
  | .str s => quotedChars s
  | .arr items => ['['] ++ itemsChars items ++ [']']
  | .obj members => ['{'] ++ membersChars members ++ ['}']

/-- The texts of array items, with commas between them. -/
def itemsChars : List Json → List Char
  | [] => []
  | [v] => chars v
  | v :: rest => chars v ++ [','] ++ itemsChars rest

/-- The texts of object members, with commas between them. -/
def membersChars : List (String × Json) → List Char
  | [] => []
  | [(name, v)] => quotedChars name ++ [':'] ++ chars v
  | (name, v) :: rest => quotedChars name ++ [':'] ++ chars v ++ [','] ++ membersChars rest

end

/-- The text of a value on one line. -/
def encode (v : Json) : String := String.ofList v.chars

end Json

end PhraseServer
