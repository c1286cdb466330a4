/-
  Nonnegative binary64 numbers, exactly.

  A magnitude is `significand · 2 ^ exponent`.  `round` takes a ratio to the
  nearest representable number, a tie to the even significand; a ratio beyond
  the largest number has none.  Products and quotients are rounded once.
-/
namespace PhraseServer

/-- A nonnegative binary64 number `significand · 2 ^ exponent`, with a
    significand below `2 ^ 53` and an exponent of at least `-1074`. -/
structure Binary64 where
  significand : Nat
  exponent : Int
deriving DecidableEq, Repr

namespace Binary64

/-- `n · 2 ^ k`, for natural `k`; nothing for a negative one. -/
def shift (n : Nat) (k : Int) : Nat := n <<< k.toNat

/-- `n · 10 ^ k`, for natural `k`; nothing for a negative one. -/
def shiftTen (n : Nat) (k : Int) : Nat := n * Nat.pow 10 k.toNat

/-- The least significand of a normal number. -/
def minNormal : Nat := 4503599627370496

/-- The exponent of the smallest numbers. -/
def minExponent : Int := -1074

/-- The exponent of the largest numbers. -/
def maxExponent : Int := 971

/-- Zero. -/
def zero : Binary64 := ⟨0, minExponent⟩

/-- The integer nearest to `n / d`, the even one of two. -/
def divNearest (n d : Nat) : Nat :=
  let q := n / d
  let twice := 2 * (n % d)
  if twice < d then q
  else if d < twice then q + 1
  else if q % 2 = 0 then q
  else q + 1

/-- The exponent `e` with `2 ^ e ≤ n / d < 2 ^ (e + 1)`, for positive `n` and `d`. -/
def log2Ratio (n d : Nat) : Int :=
  let e : Int := (n.log2 : Int) - d.log2
  if shift n (-e) < shift d e then e - 1 else e

/-- The number nearest to `n / d`; `none` beyond the largest one. -/
def round (n d : Nat) : Option Binary64 :=
  if n = 0 then some zero
  else
    let e := max (log2Ratio n d - 52) minExponent
    let m := divNearest (shift n (-e)) (shift d e)
    let r : Binary64 := if m = 2 * minNormal then ⟨minNormal, e + 1⟩ else ⟨m, e⟩
    if maxExponent < r.exponent then none else some r

/-- The ratio `n / d · 2 ^ e`, rounded. -/
def roundScaled (n d : Nat) (e : Int) : Option Binary64 :=
  round (shift n e) (shift d (-e))

/-- The rounded product. -/
def mul (x y : Binary64) : Option Binary64 :=
  roundScaled (x.significand * y.significand) 1 (x.exponent + y.exponent)

/-- The rounded quotient. -/
def div (x y : Binary64) : Option Binary64 :=
  roundScaled x.significand y.significand (x.exponent - y.exponent)

/-- The number nearest to a power of ten. -/
def powerOfTen (k : Nat) : Option Binary64 := round (Nat.pow 10 k) 1

end Binary64

end PhraseServer
