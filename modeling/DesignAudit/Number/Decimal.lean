import DesignAudit.Number.Arithmetic

/-!
# Binary values in decimal digits

A value is shown either with a fixed number of places, a tie going to the even digit, or with the
fewest digits that lead back to it. All of it is exact arithmetic on natural numbers.
-/

namespace DesignAudit.Number

def digitsOf (n : Nat) : List Char := Nat.toDigits 10 n

/-- Digits filled up with zeros in front. -/
def zeroFilled (width : Nat) (ds : List Char) : List Char :=
  List.replicate (width - ds.length) '0' ++ ds

/-- Puts a point before the last `places` digits. -/
def withPoint (places n : Nat) : List Char :=
  let ds := zeroFilled (places + 1) (digitsOf n)
  let whole := ds.take (ds.length - places)
  if places = 0 then whole else whole ++ '.' :: ds.drop (ds.length - places)

namespace Binary

/-- The fraction `m · 2 ^ e`, as numerator and denominator. -/
def fraction (m : Nat) (e : Int) : Nat × Nat := (m * Nat.pow 2 e.toNat, Nat.pow 2 (-e).toNat)

/-- A number with its sign in front. -/
def signedText (negative : Bool) (ds : List Char) : String :=
  String.ofList (if negative then '-' :: ds else ds)

/-- How infinity and what is no number are shown. -/
def infinityText (negative : Bool) : String := if negative then "-inf" else "inf"

/-- How what is no number is shown. -/
def undefinedText : String := "nan"

/-- The value times `10 ^ places`, rounded to a whole number. -/
def roundedDigits (places m : Nat) (e : Int) : Nat :=
  let (num, den) := fraction m e
  roundDiv (num * Nat.pow 10 places) den

/-- The value with a fixed number of places. -/
def fixed (places : Nat) : Binary → String
  | .finite s m e => signedText s (withPoint places (roundedDigits places m e))
  | .infinite s => infinityText s
  | .undefined => undefinedText

/-- The value rounded to a number of places. -/
def roundTo (places : Nat) : Binary → Binary
  | .finite s m e => ofDecimal s (roundedDigits places m e) (-(places : Int))
  | b => b

/-! ## The fewest digits -/

/-- The values that are read as `m · 2 ^ e` are those between two bounds, given in units of
`2 ^ (e - 2)`; the bounds themselves belong to them when the mantissa is even. -/
structure Around where
  low : Nat
  mid : Nat
  high : Nat
  closed : Bool

/-- The bounds around `m · 2 ^ e`. Below a power of two the values lie closer. -/
def around (m : Nat) (e : Int) : Around :=
  { low := if m = Nat.pow 2 52 && leastExponent < e then 4 * m - 1 else 4 * m - 2
    mid := 4 * m
    high := 4 * m + 2
    closed := m % 2 = 0 }

/-- Whether `num / den` lies between the bounds. -/
def Around.holds (a : Around) (num den : Nat) : Bool :=
  if a.closed then a.low * den ≤ num && num ≤ a.high * den
  else a.low * den < num && num < a.high * den

/-- The number of digits before the point of `num / den`, which may be negative. -/
def pointOf (num den : Nat) : Int :=
  let d : Int := (digitsOf num).length - (digitsOf den).length
  if den * Nat.pow 10 d.toNat ≤ num * Nat.pow 10 (-d).toNat then d + 1 else d

/-- The multiple of `10 ^ scale` nearest to the value `mid · unitNum / unitDen`. -/
def nearestMultiple (a : Around) (unitNum unitDen : Nat) (scale : Int) : Nat :=
  roundDiv (a.mid * (unitNum * Nat.pow 10 (-scale).toNat)) (unitDen * Nat.pow 10 scale.toNat)

/-- A decimal with the given number of digits that is read as the value, the nearest one if there
are two. The value is `mid · unitNum / unitDen`, and the digits count multiples of `10 ^ scale`. -/
def candidate? (a : Around) (unitNum unitDen : Nat) (scale : Int) : Option Nat :=
  -- In units of `2 ^ (e - 2)` a multiple `k · 10 ^ scale` is `k · stepNum / stepDen`.
  let stepNum := unitDen * Nat.pow 10 scale.toNat
  let stepDen := unitNum * Nat.pow 10 (-scale).toNat
  let k := a.mid * stepDen / stepNum
  let fits (k : Nat) := a.holds (k * stepNum) stepDen
  let nearest := nearestMultiple a unitNum unitDen scale
  if fits nearest then some nearest
  else if fits k then some k
  else if fits (k + 1) then some (k + 1)
  else none

/-- The first number of digits, from `n` on, with which a decimal is read as the value: the digits
and the power of ten they count. The nearest decimal with seventeen digits always is. -/
def shortestFrom (a : Around) (unitNum unitDen : Nat) (point : Int) : Nat → Nat → Nat × Int
  | 0, n => (nearestMultiple a unitNum unitDen (point - n), point - n)
  | fuel + 1, n =>
    let scale := point - n
    match candidate? a unitNum unitDen scale with
    | some k => (k, scale)
    | none => shortestFrom a unitNum unitDen point fuel (n + 1)

/-- Removes the zeros at the end of digits that count a power of ten. -/
def withoutZeros : Nat → Nat → Int → Nat × Int
  | 0, k, scale => (k, scale)
  | fuel + 1, k, scale =>
    if k % 10 = 0 then withoutZeros fuel (k / 10) (scale + 1) else (k, scale)

/-- The fewest digits that are read as `m · 2 ^ e`, and the power of ten they count. -/
def shortest (m : Nat) (e : Int) : Nat × Int :=
  if m = 0 then (0, 0)
  else
    let (num, den) := fraction m e
    let (unitNum, unitDen) := fraction 1 (e - 2)
    let (k, scale) := shortestFrom (around m e) unitNum unitDen (pointOf num den) 16 1
    withoutZeros 20 k scale

/-- An exponent with its sign and at least two digits. -/
def exponentText (x : Int) : List Char :=
  (if x < 0 then '-' else '+') :: zeroFilled 2 (digitsOf x.natAbs)

/-- Digits `ds` that count `10 ^ scale`: without an exponent from `0.0001` up to seventeen digits
before the point, and with one otherwise. -/
def shownDigits (ds : List Char) (scale : Int) : List Char :=
  let point : Int := ds.length + scale
  if -4 < point && point ≤ 16 then
    if point ≤ 0 then '0' :: '.' :: (List.replicate (-point).toNat '0' ++ ds)
    else if 0 ≤ scale then ds ++ List.replicate scale.toNat '0' ++ ['.', '0']
    else ds.take point.toNat ++ '.' :: ds.drop point.toNat
  else
    let mantissa := match ds with
      | [d] => [d]
      | d :: rest => d :: '.' :: rest
      | [] => ['0']
    mantissa ++ 'e' :: exponentText (point - 1)

/-- The value with the fewest digits that lead back to it. -/
def shown : Binary → String
  | .finite s m e =>
    let (k, scale) := shortest m e
    signedText s (if k = 0 then ['0', '.', '0'] else shownDigits (digitsOf k) scale)
  | .infinite s => infinityText s
  | .undefined => undefinedText

end Binary

end DesignAudit.Number
