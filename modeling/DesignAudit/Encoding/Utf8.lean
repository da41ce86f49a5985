/-!
# UTF-8

A character is written as one to four bytes, the first of which tells how many follow. Reading goes
byte by byte; a sequence that breaks off gives one replacement character for what has been read of
it, and the byte that broke it off is read anew.
-/

namespace DesignAudit.Encoding

/-- The character that stands for bytes that cannot be read. -/
def replacement : Char := Char.ofNat 0xFFFD

/-- The byte of a value below 256. -/
def byte (n : Nat) : UInt8 := UInt8.ofNat n

def utf8Bytes (c : Char) : List UInt8 :=
  let n := c.toNat
  if n < 0x80 then [byte n]
  else if n < 0x800 then [byte (0xC0 + n / 0x40), byte (0x80 + n % 0x40)]
  else if n < 0x10000 then
    [byte (0xE0 + n / 0x1000), byte (0x80 + n / 0x40 % 0x40), byte (0x80 + n % 0x40)]
  else
    [byte (0xF0 + n / 0x40000), byte (0x80 + n / 0x1000 % 0x40), byte (0x80 + n / 0x40 % 0x40),
     byte (0x80 + n % 0x40)]

/-- The bytes of a text, after those of what has been written so far, in reverse. -/
def utf8From : List UInt8 → List Char → List UInt8
  | done, [] => done.reverse
  | done, c :: rest => utf8From ((utf8Bytes c).reverse ++ done) rest

def toUtf8 (text : List Char) : List UInt8 := utf8From [] text

/-- A sequence that has begun: how many bytes are to come, the value so far, and the range of the
next byte. -/
structure Begun where
  left : Nat
  value : Nat
  low : Nat := 0x80
  high : Nat := 0xBF
  deriving DecidableEq, Repr

/-- What the first byte of a sequence tells. -/
inductive Lead where
  | whole (c : Char)
  | begins (s : Begun)
  | invalid
  deriving DecidableEq, Repr

/-- What the first byte of a sequence tells. The range of the second byte shuts out overlong forms,
surrogates, and values beyond the last character. -/
def lead (b : Nat) : Lead :=
  if b < 0x80 then .whole (Char.ofNat b)
  else if b < 0xC2 then .invalid
  else if b < 0xE0 then .begins { left := 1, value := b - 0xC0 }
  else if b < 0xF0 then
    .begins { left := 2, value := b - 0xE0, low := if b = 0xE0 then 0xA0 else 0x80,
              high := if b = 0xED then 0x9F else 0xBF }
  else if b < 0xF5 then
    .begins { left := 3, value := b - 0xF0, low := if b = 0xF0 then 0x90 else 0x80,
              high := if b = 0xF4 then 0x8F else 0xBF }
  else .invalid

/-- The state of reading: the text so far, in reverse, and the sequence that has begun. -/
structure Utf8State where
  done : List Char := []
  begun : Option Begun := none

/-- Reads the first byte of a sequence. -/
def Utf8State.first (done : List Char) (b : Nat) : Utf8State :=
  match lead b with
  | .whole c => { done := c :: done }
  | .begins s => { done, begun := some s }
  | .invalid => { done := replacement :: done }

def Utf8State.step (s : Utf8State) (b : UInt8) : Utf8State :=
  let b := b.toNat
  match s.begun with
  | none => .first s.done b
  | some g =>
    if g.low ≤ b && b ≤ g.high then
      let value := g.value * 0x40 + b % 0x40
      if g.left ≤ 1 then { done := Char.ofNat value :: s.done }
      else { s with begun := some { left := g.left - 1, value } }
    else .first (replacement :: s.done) b

/-- The text read, in which a sequence without its end is one replacement character. -/
def Utf8State.text (s : Utf8State) : List Char :=
  (if s.begun.isSome then replacement :: s.done else s.done).reverse

def ofUtf8 (bytes : List UInt8) : List Char := (bytes.foldl Utf8State.step {}).text

end DesignAudit.Encoding
