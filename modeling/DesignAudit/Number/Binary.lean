/-!
# Binary floating-point values

A finite value of the 64-bit binary format is a natural number times a power of two, with a sign.
`nearest` gives the value closest to a fraction, ties going to the even mantissa, in exact
arithmetic on natural numbers. Rounding to a whole number is exact as well.
-/

namespace DesignAudit.Number

/-- Divides and rounds to the nearest whole number, a tie going to the even one. -/
def roundDiv (num den : Nat) : Nat :=
  let q := num / den
  let r := num % den
  if 2 * r < den then q
  else if den < 2 * r then q + 1
  else if q % 2 = 0 then q else q + 1

/-- The value `± mantissa · 2 ^ exponent`, infinity, or no number at all. -/
inductive Binary where
  | finite (negative : Bool) (mantissa : Nat) (exponent : Int)
  | infinite (negative : Bool)
  | undefined
  deriving DecidableEq, Repr

namespace Binary

/-- The least exponent of the format: every value is a multiple of `2 ^ (-1074)`. -/
def leastExponent : Int := -1074

/-- The exponent at which `num / den` has a mantissa of 53 bits, or the least one. -/
def exponentFor (num den : Nat) : Int :=
  let e : Int := (Nat.log2 num : Int) - (Nat.log2 den : Int) - 52
  -- The quotient of the leading powers is off by one when the remaining bits of `num` are smaller.
  let e := if num * Nat.pow 2 (-(e + 52)).toNat < den * Nat.pow 2 (e + 52).toNat then e - 1 else e
  max e leastExponent

def nearest (negative : Bool) (num den : Nat) : Binary :=
  if num = 0 then .finite negative 0 0
  else
    let e := exponentFor num den
    let m := roundDiv (num * Nat.pow 2 (-e).toNat) (den * Nat.pow 2 e.toNat)
    let (m, e) := if m = Nat.pow 2 53 then (Nat.pow 2 52, e + 1) else (m, e)
    if 971 < e then .infinite negative else .finite negative m e

/-- The value nearest to `digits · 10 ^ exponent`. Beyond the format's range the answer is known
without computing the power. -/
def ofDecimal (negative : Bool) (digits : Nat) (exponent : Int) : Binary :=
  if digits = 0 then .finite negative 0 0
  else
    let size : Int := (Nat.toDigits 10 digits).length + exponent
    if 310 < size then .infinite negative
    else if size < -330 then .finite negative 0 0
    else nearest negative (digits * Nat.pow 10 exponent.toNat) (Nat.pow 10 (-exponent).toNat)

/-- Puts the sign to a whole number. -/
def signed (negative : Bool) (n : Nat) : Int := if negative then -(n : Int) else n

/-- The nearest whole number, a half going to the even one. -/
def round (negative : Bool) (m : Nat) (e : Int) : Int :=
  signed negative (roundDiv (m * Nat.pow 2 e.toNat) (Nat.pow 2 (-e).toNat))

/-- The whole number towards zero. -/
def truncate (negative : Bool) (m : Nat) (e : Int) : Int :=
  signed negative (m * Nat.pow 2 e.toNat / Nat.pow 2 (-e).toNat)

end Binary

end DesignAudit.Number
