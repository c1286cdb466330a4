/-
  Reading JSON.

  `Json.decode` reads a whole text as one value.  Arrays and objects nest at
  most `depth` deep; of two members with one name the last counts; blanks are
  space, tab, line feed and carriage return.  An integer that fits 64 bits stays
  one, any other number is read as a float: as many digits as fit an unsigned
  word, times a power of ten.  A number beyond the largest float is refused, and
  so are lone surrogates and bare control characters in strings.
-/
import PhraseServer.Json

namespace PhraseServer

namespace Json

/-- The rest of a text behind a value read from it. -/
abbrev Reader (α : Type) := List Char → Option (α × List Char)

/-- Blanks between the parts of a value. -/
def isGap (c : Char) : Bool := c = ' ' || c = '\t' || c = '\n' || c = '\r'

/-- A text without the blanks at its head. -/
def skipGap (cs : List Char) : List Char := cs.dropWhile isGap

/-! ## Numbers -/

/-- The largest magnitude of a negative word. -/
def maxNegative : Nat := 9223372036854775808

/-- The largest exponent that is looked at. -/
def maxPower : Nat := 2147483647

/-- The value of a decimal digit. -/
def digitValue (c : Char) : Nat := c.toNat - '0'.toNat

/-- Appends decimal digits to a number while it fits an unsigned word: the
    number and the digits that were left. -/
def gatherDigits (n : Nat) : List Char → Nat × List Char
  | [] => (n, [])
  | c :: rest =>
    let next := n * 10 + digitValue c
    if next ≤ maxWord then gatherDigits next rest else (n, c :: rest)

/-- The value of a run of decimal digits. -/
def digitsValue (cs : List Char) : Nat := cs.foldl (fun n c => n * 10 + digitValue c) 0

/-- The power of ten of the largest steps of a division. -/
def maxStep : Nat := 308

/-- Divides `n` times by the power of ten of a largest step, as far as the
    quotient is not zero. -/
def divideSteps (x : Binary64) : (n : Nat) → Option Binary64
  | 0 => some x
  | n + 1 =>
    if x = Binary64.zero then some x
    else ((Binary64.powerOfTen maxStep).bind x.div).bind fun y => divideSteps y n

/-- `x / 10 ^ k`: a large power is divided out in steps. -/
def divPowerOfTen (x : Binary64) (k : Nat) : Option Binary64 :=
  let steps := (k - 1) / maxStep
  (divideSteps x steps).bind fun y => (Binary64.powerOfTen (k - maxStep * steps)).bind y.div

/-- The float `significand · 10 ^ power`: the significand is rounded, then
    multiplied or divided. -/
def floatOfParts (significand : Nat) (power : Int) : Option Binary64 :=
  (Binary64.round significand 1).bind fun x =>
    if power < 0 then divPowerOfTen x power.natAbs
    else if power ≤ maxStep then (Binary64.powerOfTen power.natAbs).bind x.mul
    else if x = Binary64.zero then some x
    else none

/-- The parts of a number as written: digits before the point, digits behind it
    and the exponent with its sign. -/
structure Numeral where
  whole : List Char
  fraction : Option (List Char)
  power : Option (Bool × List Char)
deriving DecidableEq, Repr

/-- Reads a nonempty run of digits. -/
def digits : Reader (List Char) := fun cs =>
  match cs.takeWhile Char.isDigit with
  | [] => none
  | run => some (run, cs.dropWhile Char.isDigit)

/-- Reads the digits behind a point, if there is a point. -/
def fraction : Reader (Option (List Char))
  | '.' :: rest => (digits rest).map fun (run, rest) => (some run, rest)
  | cs => some (none, cs)

/-- Reads an exponent, if there is one; the flag tells a negative one. -/
def power : Reader (Option (Bool × List Char))
  | c :: rest =>
    if c = 'e' || c = 'E' then
      match rest with
      | '+' :: rest => (digits rest).map fun (run, rest) => (some (false, run), rest)
      | '-' :: rest => (digits rest).map fun (run, rest) => (some (true, run), rest)
      | _ => (digits rest).map fun (run, rest) => (some (false, run), rest)
    else some (none, c :: rest)
  | [] => some (none, [])

/-- Reads the parts of a number behind its sign; a leading zero stands alone. -/
def numeral : Reader Numeral := fun cs => do
  let (whole, rest) ← digits cs
  if whole.head? = some '0' && whole.length ≠ 1 then none
  else
    let (fraction, rest) ← fraction rest
    let (power, rest) ← power rest
    some (⟨whole, fraction, power⟩, rest)

/-- The magnitude of a numeral read as a float. -/
def Numeral.float (n : Numeral) : Option Binary64 :=
  let (significand, left) := gatherDigits 0 n.whole
  let behind := n.fraction.getD []
  let (significand, dropped) := gatherDigits significand behind
  let shift : Int := (left.length : Int) - (behind.length - dropped.length : Nat)
  match n.power with
  | none => floatOfParts significand shift
  | some (negative, run) =>
    let p := digitsValue run
    if p ≤ maxPower then floatOfParts significand (if negative then shift - p else shift + p)
    else if negative || significand = 0 then some Binary64.zero
    else none

/-- The number of a numeral with its sign.  Minus zero is a float. -/
def Numeral.number (negative : Bool) (n : Numeral) : Option Number :=
  let value := digitsValue n.whole
  if n.fraction.isNone && n.power.isNone && !negative && value ≤ maxWord then
    some (.int value)
  else if n.fraction.isNone && n.power.isNone && negative && 0 < value && value ≤ maxNegative then
    some (.int (-(value : Int)))
  else n.float.map (.float negative)

/-- Reads a number. -/
def number : Reader Number
  | '-' :: rest => do
    let (n, rest) ← numeral rest
    let value ← n.number true
    some (value, rest)
  | cs => do
    let (n, rest) ← numeral cs
    let value ← n.number false
    some (value, rest)

/-! ## Strings -/

/-- The value of a hexadecimal digit. -/
def hexValue? (c : Char) : Option Nat :=
  if c.isDigit then some (c.toNat - '0'.toNat)
  else if 'a' ≤ c && c ≤ 'f' then some (c.toNat - 'a'.toNat + 10)
  else if 'A' ≤ c && c ≤ 'F' then some (c.toNat - 'A'.toNat + 10)
  else none

/-- The value of four hexadecimal digits. -/
def hex4? (a b c d : Char) : Option Nat := do
  let a ← hexValue? a
  let b ← hexValue? b
  let c ← hexValue? c
  let d ← hexValue? d
  some (((a * 16 + b) * 16 + c) * 16 + d)

/-- The character of an escape of one letter. -/
def escape? (c : Char) : Option Char :=
  if c = '"' || c = '\\' || c = '/' then some c
  else if c = 'b' then some '\x08'
  else if c = 'f' then some '\x0c'
  else if c = 'n' then some '\n'
  else if c = 'r' then some '\r'
  else if c = 't' then some '\t'
  else none

/-- The first half of a pair of surrogates. -/
def isLeading (n : Nat) : Bool := 0xd800 ≤ n && n ≤ 0xdbff

/-- The second half of a pair of surrogates. -/
def isTrailing (n : Nat) : Bool := 0xdc00 ≤ n && n ≤ 0xdfff

/-- The character of a pair of surrogates. -/
def pairChar (lead trail : Nat) : Char :=
  Char.ofNat (0x10000 + (lead - 0xd800) * 0x400 + (trail - 0xdc00))

/-- Reads a string behind its opening quote; `done` holds the characters read
    so far, the last one first. -/
def stringTail (done : List Char) : Reader (List Char)
  | [] => none
  | '"' :: rest => some (done.reverse, rest)
  | '\\' :: 'u' :: a :: b :: c :: d :: rest =>
    match hex4? a b c d with
    | none => none
    | some n =>
      if isLeading n then
        match rest with
        | '\\' :: 'u' :: e :: f :: g :: h :: rest =>
          match hex4? e f g h with
          | none => none
          | some m => if isTrailing m then stringTail (pairChar n m :: done) rest else none
        | _ => none
      else if isTrailing n then none
      else stringTail (Char.ofNat n :: done) rest
  | '\\' :: c :: rest =>
    match escape? c with
    | none => none
    | some e => stringTail (e :: done) rest
  | c :: rest => if c.toNat < 0x20 then none else stringTail (c :: done) rest

/-- Reads a string. -/
def string : Reader String
  | '"' :: rest => (stringTail [] rest).map fun (cs, rest) => (String.ofList cs, rest)
  | _ => none

/-! ## Values -/

/-- Reads a value that is neither array nor object. -/
def scalar : Reader Json
  | 'n' :: 'u' :: 'l' :: 'l' :: rest => some (.null, rest)
  | 't' :: 'r' :: 'u' :: 'e' :: rest => some (.bool true, rest)
  | 'f' :: 'a' :: 'l' :: 's' :: 'e' :: rest => some (.bool false, rest)
  | '"' :: rest => (string ('"' :: rest)).map fun (s, rest) => (.str s, rest)
  | cs => (number cs).map fun (n, rest) => (.num n, rest)

/-- Reads items up to a closing character, at least one, with commas between
    them; `bound` is a bound on their number. -/
def itemsUntil {α : Type} (item : Reader α) (close : Char) : (bound : Nat) → Reader (List α)
  | 0, _ => none
  | bound + 1, cs =>
    match item cs with
    | none => none
    | some (x, rest) =>
      match skipGap rest with
      | [] => none
      | c :: rest =>
        if c = close then some ([x], rest)
        else if c = ',' then
          (itemsUntil item close bound rest).map fun (xs, rest) => (x :: xs, rest)
        else none

/-- Reads items up to a closing character, with commas between them. -/
def items {α : Type} (item : Reader α) (close : Char) : Reader (List α) := fun cs =>
  match skipGap cs with
  | [] => none
  | c :: rest => if c = close then some ([], rest) else itemsUntil item close cs.length cs

/-- Reads a member of an object. -/
def member (value : Reader Json) : Reader (String × Json) := fun cs =>
  match string (skipGap cs) with
  | none => none
  | some (name, rest) =>
    match skipGap rest with
    | ':' :: rest => (value rest).map fun (v, rest) => ((name, v), rest)
    | _ => none

/-- Reads a value whose arrays and objects nest at most `depth` deep. -/
def value : (depth : Nat) → Reader Json
  | 0, cs => scalar (skipGap cs)
  | depth + 1, cs =>
    match skipGap cs with
    | '[' :: rest => (items (value depth) ']' rest).map fun (vs, rest) => (.arr vs, rest)
    | '{' :: rest =>
      (items (member (value depth)) '}' rest).map fun (ms, rest) => (object ms, rest)
    | cs => scalar cs

/-- How deep the values of the wire nest. -/
def maxDepth : Nat := 127

/-- Reads a whole text as one value. -/
def decodeWith (depth : Nat) (cs : List Char) : Option Json :=
  match value depth cs with
  | some (v, rest) => if (skipGap rest).isEmpty then some v else none
  | none => none

/-- Reads a whole text as one value of the wire. -/
def decode (cs : List Char) : Option Json := decodeWith maxDepth cs

end Json

end PhraseServer
