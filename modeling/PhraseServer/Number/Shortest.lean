/-
  The shortest decimal text of a binary64 number.

  Of the decimals that round to the number, those with the fewest digits are
  considered, and of these the nearest is taken.  Numbers from `10 ^ -5` up to
  `10 ^ 16` are written positionally, with at least one place behind the point;
  all others with a signed exponent.
-/
import PhraseServer.Number.Binary64

namespace PhraseServer

namespace Binary64

/-! ## Digits -/

/-- A decimal `digits · 10 ^ exponent`. -/
structure Decimal where
  digits : Nat
  exponent : Int
deriving DecidableEq, Repr

/-- Compares `a · 2 ^ e` with `b · 10 ^ k`. -/
def compareScaled (a : Nat) (e : Int) (b : Nat) (k : Int) : Ordering :=
  compare (shiftTen (shift a e) (-k)) (shiftTen (shift b (-e)) k)

/-- Whether a decimal lies in the interval of the reals that round to `x`.  Its
    ends lie halfway to the neighbours and count for an even significand. -/
def reads (x : Binary64) (d : Decimal) : Bool :=
  let wide := x.significand = minNormal && x.exponent ≠ minExponent
  let low := if wide then 4 * x.significand - 1 else 4 * x.significand - 2
  let high := 4 * x.significand + 2
  let even := x.significand % 2 = 0
  let fromLow := compareScaled low (x.exponent - 2) d.digits d.exponent
  let fromHigh := compareScaled high (x.exponent - 2) d.digits d.exponent
  (fromLow == .lt || (even && fromLow == .eq)) && (fromHigh == .gt || (even && fromHigh == .eq))

/-- The greatest `p` with `10 ^ p ≤ x`, for positive `x`. -/
def log10 (x : Binary64) : Int :=
  let candidates := (List.range 640).map fun (i : Nat) => (308 : Int) - i
  (candidates.find? fun p => compareScaled x.significand x.exponent 1 p != .lt).getD 0

/-- The integer part of `x / 10 ^ k`. -/
def scaledFloor (x : Binary64) (k : Int) : Nat :=
  shiftTen (shift x.significand x.exponent) (-k) / shiftTen (shift 1 (-x.exponent)) k

/-- Whether `x` is nearer to the lower than to the upper end of its cell on the
    grid of `10 ^ k`; a tie goes to the even end. -/
def nearerBelow (x : Binary64) (floor : Nat) (k : Int) : Bool :=
  match compareScaled (2 * x.significand) x.exponent (2 * floor + 1) k with
  | .lt => true
  | .eq => floor % 2 = 0
  | .gt => false

/-- The nearest decimal with `n` digits that reads back as `x`, if there is one. -/
def withDigits (x : Binary64) (n : Nat) : Option Decimal :=
  let k := x.log10 - n + 1
  let floor := x.scaledFloor k
  let below : Decimal := ⟨floor, k⟩
  let above : Decimal := ⟨floor + 1, k⟩
  match x.reads below, x.reads above with
  | true, true => some (if x.nearerBelow floor k then below else above)
  | true, false => some below
  | false, true => some above
  | false, false => none

/-- The shortest decimal that reads back as `x`; seventeen digits always do. -/
def shortest (x : Binary64) : Decimal :=
  ((List.range 17).findSome? fun i => x.withDigits (i + 1)).getD ⟨0, 0⟩

/-! ## Text -/

/-- The digits of a decimal without trailing zeros, and the power of ten of the
    last of them. -/
def Decimal.trimmed (d : Decimal) : List Char × Int :=
  let digits := Nat.toDigits 10 d.digits
  let kept := (digits.reverse.dropWhile (· = '0')).reverse
  (kept, d.exponent + (digits.length - kept.length : Nat))

/-- The text of an exponent, always with its sign. -/
def exponentText (e : Int) : List Char :=
  (if e < 0 then '-' else '+') :: Nat.toDigits 10 e.natAbs

/-- The text of a number. -/
def text (x : Binary64) : List Char :=
  if x.significand = 0 then ['0', '.', '0']
  else
    let (digits, k) := x.shortest.trimmed
    let point : Int := digits.length + k
    if 0 ≤ k && point ≤ 16 then digits ++ List.replicate k.toNat '0' ++ ['.', '0']
    else if 0 < point && point ≤ 16 then
      digits.take point.toNat ++ ['.'] ++ digits.drop point.toNat
    else if -5 < point && point ≤ 0 then
      ['0', '.'] ++ List.replicate (-point).toNat '0' ++ digits
    else
      let mantissa := if digits.length = 1 then digits else digits.take 1 ++ ['.'] ++ digits.drop 1
      mantissa ++ ['e'] ++ exponentText (point - 1)

end Binary64

end PhraseServer
