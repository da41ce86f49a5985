import DesignAudit.Number.Binary

/-!
# Arithmetic on binary values

Each operation gives the value nearest to the exact result. Comparison is exact: the two zeros are
equal, and what is no number is neither equal to anything nor less than it.
-/

namespace DesignAudit.Number.Binary

def zero : Binary := .finite false 0 0

/-- The value nearest to a whole number. -/
def ofInt (n : Int) : Binary := nearest (n < 0) n.natAbs 1

/-- The whole number `± m · 2 ^ (e - least)`, for an exponent that is not below `least`. -/
def aligned (least : Int) (negative : Bool) (m : Nat) (e : Int) : Int :=
  signed negative (m * Nat.pow 2 (e - least).toNat)

def scaled (n : Int) (e : Int) : Binary :=
  nearest (n < 0) (n.natAbs * Nat.pow 2 e.toNat) (Nat.pow 2 (-e).toNat)

def add : Binary → Binary → Binary
  | .finite s m e, .finite t n f =>
    let least := min e f
    let sum := aligned least s m e + aligned least t n f
    if sum = 0 then .finite (s && t) 0 0 else scaled sum least
  | .infinite s, .infinite t => if s = t then .infinite s else .undefined
  | .infinite s, .finite .. => .infinite s
  | .finite .., .infinite t => .infinite t
  | .undefined, _ => .undefined
  | _, .undefined => .undefined

def neg : Binary → Binary
  | .finite s m e => .finite (!s) m e
  | .infinite s => .infinite (!s)
  | .undefined => .undefined

def sub (a b : Binary) : Binary := add a (neg b)

def mul : Binary → Binary → Binary
  | .finite s m e, .finite t n f =>
    nearest (s != t) (m * n * Nat.pow 2 (e + f).toNat) (Nat.pow 2 (-(e + f)).toNat)
  | .undefined, _ | _, .undefined => .undefined
  | .infinite s, .infinite t => .infinite (s != t)
  | .infinite s, .finite t n _ => if n = 0 then .undefined else .infinite (s != t)
  | .finite s m _, .infinite t => if m = 0 then .undefined else .infinite (s != t)

/-- The quotient; there is none by zero. -/
def div : Binary → Binary → Option Binary
  | _, .finite _ 0 _ => none
  | .finite s m e, .finite t n f =>
    some (nearest (s != t) (m * Nat.pow 2 (e - f).toNat) (n * Nat.pow 2 (f - e).toNat))
  | .infinite s, .finite t _ _ => some (.infinite (s != t))
  | .finite s _ _, .infinite t => some (.finite (s != t) 0 0)
  | _, _ => some .undefined

/-- Whether the first value is less than the second. -/
def lt : Binary → Binary → Bool
  | .finite s m e, .finite t n f =>
    let least := min e f
    aligned least s m e < aligned least t n f
  | .infinite s, .infinite t => s && !t
  | .infinite s, .finite .. => s
  | .finite .., .infinite t => !t
  | .undefined, _ => false
  | _, .undefined => false

/-- Whether two values are equal. -/
def eq : Binary → Binary → Bool
  | .finite s m e, .finite t n f =>
    let least := min e f
    aligned least s m e == aligned least t n f
  | .infinite s, .infinite t => s == t
  | _, _ => false

/-- Whether the first value is at most the second. -/
def le (a b : Binary) : Bool := lt a b || eq a b

end DesignAudit.Number.Binary
