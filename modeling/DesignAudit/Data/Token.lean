import DesignAudit.Data.Value
import DesignAudit.Number.Reading

/-!
# Tokens of a data text

A data text is cut into brackets, marks, texts, numbers and words. A text may be faulty; the fault
belongs to the token, because whether it counts depends on what is looked for at that place.
-/

namespace DesignAudit.Data

open Number

/-- What is wrong with a data text. -/
inductive Wrong where
  | value
  | name
  | colon
  | comma
  | more
  | unterminated
  | control
  | escape
  | unicodeEscape
  | mark
  deriving DecidableEq, Repr

def Wrong.text : Wrong → String
  | value => "Expecting value"
  | name => "Expecting property name enclosed in double quotes"
  | colon => "Expecting ':' delimiter"
  | comma => "Expecting ',' delimiter"
  | more => "Extra data"
  | unterminated => "Unterminated string starting at"
  | control => "Invalid control character at"
  | escape => "Invalid \\escape"
  | unicodeEscape => "Invalid \\uXXXX escape"
  | mark => "Unexpected UTF-8 BOM (decode using utf-8-sig)"

/-- A fault of a data text, and the character it is at. -/
structure ReadFault where
  wrong : Wrong
  place : Nat
  deriving DecidableEq, Repr

/-- How a fault of a data text is told. -/
def ReadFault.message (f : ReadFault) (text : String) : String :=
  let before := text.toList.take f.place
  let line := before.count '\n' + 1
  let column := (before.reverse.takeWhile (· != '\n')).length + 1
  let what := f.wrong.text
  let place := f.place
  s!"{what}: line {line} column {column} (char {place})"

inductive Token where
  | openList
  | closeList
  | openRecord
  | closeRecord
  | colon
  | comma
  | text (s : Except ReadFault String)
  | plain (v : Value)
  | other

/-- The blanks between tokens. -/
def isGap (c : Char) : Bool := c == ' ' || c == '\t' || c == '\n' || c == '\r'

/-! ## Texts -/

def hexValue? (c : Char) : Option Nat :=
  if '0' ≤ c ∧ c ≤ '9' then some (c.toNat - '0'.toNat)
  else if 'a' ≤ c ∧ c ≤ 'f' then some (c.toNat - 'a'.toNat + 10)
  else if 'A' ≤ c ∧ c ≤ 'F' then some (c.toNat - 'A'.toNat + 10)
  else none

/-- The value of hexadecimal digits. -/
def hexNumber? (cs : List Char) : Option Nat :=
  cs.foldl (fun n c => do return (← n) * 16 + (← hexValue? c)) (some 0)

/-- What a letter after a backslash stands for. -/
def escaped? : Char → Option Nat
  | '"' => some 0x22
  | '\\' => some 0x5C
  | '/' => some 0x2F
  | 'b' => some 0x08
  | 'f' => some 0x0C
  | 'n' => some 0x0A
  | 'r' => some 0x0D
  | 't' => some 0x09
  | _ => none

/-- Joins pairs of surrogates; one that is left alone cannot be kept. -/
def joinSurrogates : List Nat → List Char
  | [] => []
  | [u] => [if (Nat.isValidChar u : Bool) then Char.ofNat u else Char.ofNat 0xFFFD]
  | u :: v :: rest =>
    if 0xD800 ≤ u ∧ u < 0xDC00 ∧ 0xDC00 ≤ v ∧ v < 0xE000 then
      Char.ofNat (0x10000 + (u - 0xD800) * 0x400 + (v - 0xDC00)) :: joinSurrogates rest
    else (if 0xD800 ≤ u ∧ u < 0xE000 then Char.ofNat 0xFFFD else Char.ofNat u) ::
      joinSurrogates (v :: rest)

/-- Reads a text to its closing quote. The first number is where the text begins, the second where
the rest begins. The result tells how many characters belong to the text. -/
def readText (start : Nat) : Nat → List Nat → List Char → Except ReadFault (String × Nat)
  | i, done, '"' :: _ => .ok (String.ofList (joinSurrogates done.reverse), i + 1 - start)
  | i, done, '\\' :: 'u' :: a :: b :: c :: d :: rest =>
    match rest, hexNumber? [a, b, c, d] with
    | _ :: _, some u => readText start (i + 6) (u :: done) rest
    | _, _ => .error ⟨.unicodeEscape, i + 1⟩
  | i, _, '\\' :: 'u' :: _ => .error ⟨.unicodeEscape, i + 1⟩
  | i, done, '\\' :: c :: rest =>
    match escaped? c with
    | some u => readText start (i + 2) (u :: done) rest
    | none => .error ⟨.escape, i⟩
  | _, _, ['\\'] => .error ⟨.unterminated, start⟩
  | i, done, c :: rest =>
    if c.toNat < 0x20 then .error ⟨.control, i⟩ else readText start (i + 1) (c.toNat :: done) rest
  | _, _, [] => .error ⟨.unterminated, start⟩

/-! ## Numbers -/

def leadingDigits (cs : List Char) : List Char := cs.takeWhile Char.isDigit

/-- The whole part of a number: a zero, or digits that do not begin with one. -/
def wholePart : List Char → List Char
  | '0' :: _ => ['0']
  | cs => leadingDigits cs

/-- The fraction of a number with its point, or nothing if no digit follows the point. -/
def fractionPart : List Char → List Char
  | '.' :: rest => if (leadingDigits rest).isEmpty then [] else '.' :: leadingDigits rest
  | _ => []

/-- The exponent of a number with its mark, or nothing if no digit follows. -/
def exponentPart : List Char → List Char
  | e :: rest =>
    let sign := rest.takeWhile (fun c => c == '+' || c == '-') |>.take 1
    let digits := leadingDigits (rest.drop sign.length)
    if (e == 'e' || e == 'E') && !digits.isEmpty then e :: sign ++ digits else []
  | [] => []

/-- The number that a numeral denotes, given its parts. -/
def numeralValue (negative : Bool) (whole fraction exponent : List Char) : Value :=
  if fraction.isEmpty && exponent.isEmpty then .whole (Binary.signed negative (digitsValue whole))
  else
    let places := fraction.drop 1
    let power := (exponentPart? exponent).getD 0
    .real (.ofDecimal negative (digitsValue (whole ++ places)) (power - places.length))

/-- The number at the head of characters, and how many of them belong to it. -/
def readNumber? (cs : List Char) : Option (Value × Nat) :=
  let negative := cs.head? == some '-'
  let cs := if negative then cs.drop 1 else cs
  let whole := wholePart cs
  let fraction := fractionPart (cs.drop whole.length)
  let exponent := exponentPart (cs.drop (whole.length + fraction.length))
  let length := whole.length + fraction.length + exponent.length + (if negative then 1 else 0)
  if whole.isEmpty then none else some (numeralValue negative whole fraction exponent, length)

/-! ## Tokens -/

def wordValues : List (String × Value) :=
  [("null", .null), ("true", .truth true), ("false", .truth false), ("NaN", .real .undefined),
   ("Infinity", .real (.infinite false)), ("-Infinity", .real (.infinite true))]

/-- The word or number at the head of characters. -/
def readPlain? (cs : List Char) : Option (Value × Nat) :=
  match wordValues.find? fun (w, _) => w.toList.isPrefixOf cs with
  | some (w, v) => some (v, w.length)
  | none => readNumber? cs

/-- The token at the head of characters, and how many of them belong to it. -/
def tokenAt (i : Nat) (cs : List Char) : Token × Nat :=
  match cs with
  | '[' :: _ => (.openList, 1)
  | ']' :: _ => (.closeList, 1)
  | '\x7b' :: _ => (.openRecord, 1)
  | '\x7d' :: _ => (.closeRecord, 1)
  | ':' :: _ => (.colon, 1)
  | ',' :: _ => (.comma, 1)
  | '"' :: rest =>
    match readText i (i + 1) [] rest with
    | .ok (s, n) => (.text (.ok s), n)
    | .error f => (.text (.error f), cs.length)
  | _ =>
    match readPlain? cs with
    | some (v, n) => (.plain v, n)
    | none => (.other, 1)

/-- The tokens of characters with their places. The first number is the place of the first
character. -/
def tokensFrom (i : Nat) (done : Array (Nat × Token)) : List Char → Array (Nat × Token)
  | [] => done
  | c :: rest =>
    if isGap c then tokensFrom (i + 1) done rest
    else
      let (t, n) := tokenAt i (c :: rest)
      tokensFrom (i + max 1 n) (done.push (i, t)) (rest.drop (n - 1))
termination_by cs => cs.length
decreasing_by all_goals simp; try omega

/-- The tokens of a data text with their places. -/
def tokens (text : List Char) : List (Nat × Token) := (tokensFrom 0 #[] text).toList

end DesignAudit.Data
