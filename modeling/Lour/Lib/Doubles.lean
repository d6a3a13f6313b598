import Mathlib.Data.Int.Log
import Mathlib.Data.Rat.Floor
import Lour.Lib.Numerals
/-!
# Doubles

The float nearest to a number, and the number that a float is.  A float is kept as the
shortest decimal that denotes it, the closest one where there are several.
-/

namespace Lour.Lib.Python

/-- To the nearest integer, and to the even one of two. -/
def roundHalfEven (x : ℚ) : ℤ :=
  let k := ⌊x⌋
  if x - k < 1 / 2 then k
  else if 1 / 2 < x - k then k + 1
  else k + k % 2

/-- The last place of a positive number among 53 binary digits; the smallest doubles
have fewer. -/
def lastPlace (x : ℚ) : ℚ := (2 : ℚ) ^ max (-1074) (Int.log 2 x - 52)

/-- A positive number rounded to 53 binary digits. -/
def nearestDouble (x : ℚ) : ℚ := roundHalfEven (x / lastPlace x) * lastPlace x

/-- The decimals of `k` digits next to a positive double that denote it, the closest
first. -/
def denoting (x : ℚ) (k : ℕ) : List (ℕ × ℤ) :=
  let exponent := Int.log 10 x + 1 - k
  let unit := (10 : ℚ) ^ exponent
  let below := ⌊x / unit⌋₊
  let closest := (roundHalfEven (x / unit)).toNat
  let neighbours := if closest = below then [below, below + 1] else [below + 1, below]
  (neighbours.filter fun digits : ℕ => nearestDouble (digits * unit) = x).map (·, exponent)

/-- Seventeen digits always suffice. -/
def shortest (neg : Bool) (x : ℚ) : Decimal :=
  match (List.range 17).findSome? fun k => (denoting x (k + 1)).head? with
  | some (digits, exponent) => .normalise neg digits exponent
  | none => .normalise neg 0 0

namespace PyFloat

/-- The float nearest to a number, which is given without its sign. -/
def ofRat (neg : Bool) (x : ℚ) : PyFloat :=
  if x = 0 then .finite (.normalise neg 0 0)
  else if nearestDouble x = 0 then .finite (.normalise neg 0 0)
  else if (2 : ℚ) ^ (1024 : ℕ) ≤ nearestDouble x then .inf neg
  else .finite (shortest neg (nearestDouble x))

end PyFloat

/-! ## Arithmetic

A finite float as the number it is; sums and quotients beyond the largest float are left
out. -/

/-- The float nearest to a number of either sign. -/
def toDouble (x : ℚ) : ℚ := if x < 0 then -nearestDouble (-x) else nearestDouble x

/-- `round(x, n)`. -/
def roundTo (n : ℕ) (x : ℚ) : ℚ := toDouble (roundHalfEven (x * 10 ^ n) / 10 ^ n)

/-- `abs(x)`. -/
def magnitude (x : ℚ) : ℚ := if x < 0 then -x else x

/-- One more float for `sum`: the sum so far and what was lost of it to rounding. -/
def addCompensated (acc : ℚ × ℚ) (x : ℚ) : ℚ × ℚ :=
  let t := toDouble (acc.1 + x)
  let lost :=
    if magnitude x ≤ magnitude acc.1 then toDouble (toDouble (acc.1 - t) + x)
    else toDouble (toDouble (x - t) + acc.1)
  (t, toDouble (acc.2 + lost))

/-- `sum(xs)`. -/
def sumDoubles : List ℚ → ℚ
  | [] => 0
  | x :: xs =>
      let acc := xs.foldl addCompensated (x, 0)
      toDouble (acc.1 + acc.2)

/-- `int(x)` for a finite float. -/
def Decimal.truncate (d : Decimal) : ℤ :=
  let whole : ℤ := if d.digits = 0 then 0 else ⌊nearestDouble d.abs⌋
  if d.neg then -whole else whole

end Lour.Lib.Python
