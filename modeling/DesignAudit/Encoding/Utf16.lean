import DesignAudit.Encoding.Utf8

/-!
# UTF-16

A character of the basic plane is one unit of two bytes, any other character a pair of surrogates.
Which byte of a unit comes first is told by the mark before the text. A surrogate without its
partner gives a replacement character, and so does what is left over at the end.
-/

namespace DesignAudit.Encoding

/-- Which byte of a unit comes first. -/
inductive ByteOrder where
  | littleEndian
  | bigEndian
  deriving DecidableEq, Repr

def units (c : Char) : List Nat :=
  let n := c.toNat
  if n < 0x10000 then [n] else [0xD800 + (n - 0x10000) / 0x400, 0xDC00 + (n - 0x10000) % 0x400]

def unitBytes (o : ByteOrder) (u : Nat) : List UInt8 :=
  match o with
  | .littleEndian => [byte (u % 0x100), byte (u / 0x100)]
  | .bigEndian => [byte (u / 0x100), byte (u % 0x100)]

def toUtf16 (o : ByteOrder) (text : List Char) : List UInt8 :=
  text.flatMap fun c => (units c).flatMap (unitBytes o)

def mark (o : ByteOrder) : List UInt8 := unitBytes o 0xFEFF

/-- The byte order that a mark at the head of bytes tells. -/
def markedOrder? : List UInt8 → Option ByteOrder
  | a :: b :: _ =>
    if a == 0xFF && b == 0xFE then some .littleEndian
    else if a == 0xFE && b == 0xFF then some .bigEndian
    else none
  | _ => none

def unit (o : ByteOrder) (a b : UInt8) : Nat :=
  match o with
  | .littleEndian => b.toNat * 0x100 + a.toNat
  | .bigEndian => a.toNat * 0x100 + b.toNat

/-- The first unit of a pair. -/
def isHigh (u : Nat) : Bool := Nat.ble 0xD800 u && Nat.ble u 0xDBFF

/-- The second unit of a pair. -/
def isLow (u : Nat) : Bool := Nat.ble 0xDC00 u && Nat.ble u 0xDFFF

/-- The state of reading: the text so far, in reverse, the first byte of a unit, and the first unit
of a pair. -/
structure Utf16State where
  done : List Char := []
  half : Option UInt8 := none
  high : Option Nat := none

def Utf16State.stepUnit (s : Utf16State) (u : Nat) : Utf16State :=
  -- A first unit that is waiting is completed or lost.
  if isLow u then
    match s.high with
    | some h => { done := Char.ofNat (0x10000 + (h - 0xD800) * 0x400 + (u - 0xDC00)) :: s.done }
    | none => { done := replacement :: s.done }
  else
    let done := if s.high.isSome then replacement :: s.done else s.done
    if isHigh u then { done, high := some u } else { done := Char.ofNat u :: done }

def Utf16State.step (o : ByteOrder) (s : Utf16State) (b : UInt8) : Utf16State :=
  match s.half with
  | none => { s with half := some b }
  | some a => Utf16State.stepUnit { s with half := none } (unit o a b)

/-- The text read; what is left over at the end is one replacement character. -/
def Utf16State.text (s : Utf16State) : List Char :=
  (if s.half.isSome || s.high.isSome then replacement :: s.done else s.done).reverse

/-- The text of bytes without a mark. -/
def ofUtf16 (o : ByteOrder) (bytes : List UInt8) : List Char :=
  (bytes.foldl (Utf16State.step o) {}).text

end DesignAudit.Encoding
