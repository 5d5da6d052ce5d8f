/-!
# Json/Double — the 64-bit binary fractions, exactly

A finite double is a sign, a whole number `m` below `2 ^ 53` and an exponent `e`, and stands for `±
m * 2 ^ e`.  `ofDecimal` rounds a decimal to the nearest double, a tie going to the even `m`.
`digits` is the other direction: the fewest decimal digits that round back, and of those the
nearest.
-/

namespace Sigil

/-- A 64-bit binary fraction. -/
inductive Double where
  /-- `± m * 2 ^ e`. -/
  | finite (negative : Bool) (m : Nat) (e : Int)
  /-- Beyond the largest finite double. -/
  | infinite (negative : Bool)
  /-- No number. -/
  | nan
deriving DecidableEq, Repr, Inhabited

namespace Double

/-- The smallest exponent. -/
def minExponent : Int := -1074

/-- The largest exponent of a finite double. -/
def maxExponent : Int := 971

/-- The binary digits of a double are a number below this one. -/
def mantissaLimit : Nat := 9007199254740992

/-- Half of the limit: all digits are in use from here on. -/
def halfLimit : Nat := 4503599627370496

/-- The quotient `num / (den * 2 ^ e)`, rounded down, and whether the rest is below, at or above
one half. -/
def scaled (num den : Nat) (e : Int) : Nat × Ordering :=
  let num := if e < 0 then num * Nat.pow 2 (-e).toNat else num
  let den := if e < 0 then den else den * Nat.pow 2 e.toNat
  (num / den, compare (2 * (num % den)) den)

/-- The exponent with which `num / den` has 53 binary digits, or the smallest exponent. -/
def fittingExponent (num den : Nat) : Int :=
  let guess : Int := (num.log2 : Int) - den.log2 - 52
  let guess := max guess minExponent
  let q := (scaled num den guess).1
  if mantissaLimit ≤ q then guess + 1
  else if q < halfLimit then max (guess - 1) minExponent
  else guess

/-- The double nearest to `num / den`. -/
def ofFraction (negative : Bool) (num den : Nat) : Double :=
  if num = 0 then .finite negative 0 minExponent
  else
    let e := fittingExponent num den
    let (q, rest) := scaled num den e
    let q := match rest with
      | .lt => q
      | .gt => q + 1
      | .eq => q + q % 2
    let (q, e) := if mantissaLimit ≤ q then (q / 2, e + 1) else (q, e)
    if maxExponent < e then .infinite negative
    else if q = 0 then .finite negative 0 minExponent
    else .finite negative q e

/-- The double nearest to `± d * 10 ^ x`. -/
def ofDecimal (negative : Bool) (d : Nat) (x : Int) : Double :=
  let places := (Nat.toDigits 10 d).length
  if d = 0 then .finite negative 0 minExponent
  else if 400 < x + places then .infinite negative
  else if x + places < -400 then .finite negative 0 minExponent
  else if x < 0 then ofFraction negative d (Nat.pow 10 (-x).toNat)
  else ofFraction negative (d * Nat.pow 10 x.toNat) 1

/-- The whole number that a double is, if it is one. -/
def toInt? : Double → Option Int
  | .finite negative m e =>
    let sign : Int := if negative then -1 else 1
    if 0 ≤ e then some (sign * (m * Nat.pow 2 e.toNat : Nat))
    else
      let d := Nat.pow 2 (-e).toNat
      if m % d = 0 then some (sign * (m / d : Nat)) else none
  | _ => none

/-- Equal as numbers: no sign on zero, and `nan` differs from everything. -/
def same : Double → Double → Bool
  | .finite n m e, .finite n' m' e' => (m = 0 && m' = 0) || (n = n' && m = m' && e = e')
  | .infinite n, .infinite n' => n = n'
  | _, _ => false

/-- Zero, with either sign. -/
def isZero : Double → Bool
  | .finite _ m _ => m = 0
  | _ => false

/-! ## Decimal digits -/

/-- Whether `c * 10 ^ x` rounds to `m * 2 ^ e`, everything counted in quarters of `2 ^ e`. -/
def readsBack (m : Nat) (e : Int) (c : Nat) (x : Int) : Bool :=
  let low := if m = halfLimit && minExponent < e then 4 * m - 1 else 4 * m - 2
  let high := 4 * m + 2
  let e := e - 2
  -- cross-multiply `c * 10 ^ x` with bounds of the form `b * 2 ^ e`
  let left := c * Nat.pow 10 x.toNat * Nat.pow 2 (-e).toNat
  let scale := Nat.pow 10 (-x).toNat * Nat.pow 2 e.toNat
  if m % 2 = 0 then low * scale ≤ left && left ≤ high * scale
  else low * scale < left && left < high * scale

/-- The least `k` with `num / den < 10 ^ k`, searched upwards from a guess below it. -/
def scaleFrom (num den : Nat) : Nat → Int → Int
  | 0, k => k
  | fuel + 1, k =>
    if num * Nat.pow 10 (-k).toNat < den * Nat.pow 10 k.toNat then k
    else scaleFrom num den fuel (k + 1)

/-- Drops zeros at the end of a decimal, adding to its exponent. -/
def stripZeros : Nat → Nat → Int → Nat × Int
  | 0, c, x => (c, x)
  | fuel + 1, c, x => if c % 10 = 0 && c ≠ 0 then stripZeros fuel (c / 10) (x + 1) else (c, x)

/-- The first grid of decimals, from coarse to fine, on which a neighbour of `m * 2 ^ e` reads back.
-/
def searchGrid (m : Nat) (e k : Int) (num den : Nat) : Nat → Nat → Nat × Int
  | 0, n =>
    let x := k - n
    (num * Nat.pow 10 (-x).toNat / (den * Nat.pow 10 x.toNat), x)
  | fuel + 1, n =>
    let x := k - n
    let top := num * Nat.pow 10 (-x).toNat
    let bottom := den * Nat.pow 10 x.toNat
    let c := top / bottom
    match readsBack m e c x, readsBack m e (c + 1) x with
    | true, true => if 2 * top ≤ (2 * c + 1) * bottom then (c, x) else (c + 1, x)
    | true, false => (c, x)
    | false, true => (c + 1, x)
    | false, false => searchGrid m e k num den fuel (n + 1)

/-- The fewest decimal digits `c` and the exponent `x` such that `c * 10 ^ x` rounds to `m * 2 ^ e`.
-/
def digits (m : Nat) (e : Int) : Nat × Int :=
  let num := if 0 ≤ e then m * Nat.pow 2 e.toNat else m
  let den := if 0 ≤ e then 1 else Nat.pow 2 (-e).toNat
  let guess : Int := ((m.log2 : Int) + e) * 30103 / 100000 - 2
  let k := scaleFrom num den 8 guess
  let (c, x) := searchGrid m e k num den 17 1
  stripZeros 20 c x

/-- Exactly one digit behind the point, rounded from the exact value, a tie going to the even digit.
-/
def tenths : Double → String
  | .nan => "nan"
  | .infinite negative => if negative then "-inf" else "inf"
  | .finite negative m e =>
    let (q, rest) := scaled (10 * m) 1 (-e)
    let q := match rest with
      | .lt => q
      | .gt => q + 1
      | .eq => q + q % 2
    (if negative then "-" else "") ++ toString (q / 10) ++ "." ++ toString (q % 10)

end Double

end Sigil
