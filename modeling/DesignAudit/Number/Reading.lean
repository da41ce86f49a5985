import DesignAudit.Number.Binary
import DesignAudit.Text.Blank
import DesignAudit.Text.Digit

/-!
# Reading numbers

A numeral may stand between blanks, may use the decimal digits of any script, and may have a single
low line between two digits. A real number may have a point, an exponent, or be one of the words for
infinity and for an undefined value; a whole number has digits only, and not too many of them.
-/

namespace DesignAudit.Number

open Text

/-- Brings a numeral to ASCII: digits of all scripts by value, blanks as spaces. A text that is
already ASCII is left alone, so the ASCII separators are blanks only beside other characters. -/
def plainNumeral (cs : List Char) : List Char :=
  if cs.all (fun c => Nat.blt c.toNat 0x80) then cs
  else cs.map fun c =>
    if c.toNat < 0x80 && !isBlank c then c
    else if isBlank c then ' '
    else
      match decimalValue? c with
      | some d => Char.ofNat (48 + d)
      | none => '?'

/-- The blanks that may stand around a numeral. -/
def isNumeralBlank (c : Char) : Bool :=
  c == ' ' || (Nat.ble 9 c.toNat && Nat.ble c.toNat 13)

/-- Removes the low lines of a numeral, each of which has to stand between two digits. -/
def dropLowLines : Option Char → List Char → Option (List Char)
  | before, [] => if before == some '_' then none else some []
  | before, c :: rest =>
    if c == '_' then
      if before.any Char.isDigit then dropLowLines (some c) rest else none
    else if before == some '_' && !c.isDigit then none
    else (dropLowLines (some c) rest).map (c :: ·)

/-- The number that a run of decimal digits denotes. -/
def digitsValue (cs : List Char) : Nat :=
  cs.foldl (fun n c => n * 10 + (c.toNat - 48)) 0

/-- Splits off a sign; the flag says whether it is a minus. -/
def takeSign : List Char → Bool × List Char
  | '-' :: rest => (true, rest)
  | '+' :: rest => (false, rest)
  | cs => (false, cs)

/-- The exponent part of a numeral, which has to be all that is left. -/
def exponentPart? : List Char → Option Int
  | [] => some 0
  | c :: rest =>
    if c == 'e' || c == 'E' then
      let (negative, digits) := takeSign rest
      if digits.isEmpty || !digits.all Char.isDigit then none
      else some (Binary.signed negative (digitsValue digits))
    else none

/-- A real number without sign. -/
def unsignedReal? (negative : Bool) (cs : List Char) : Option Binary :=
  let word := String.ofList (cs.map Char.toLower)
  if word = "inf" || word = "infinity" then some (.infinite negative)
  else if word = "nan" then some .undefined
  else
    let whole := cs.takeWhile Char.isDigit
    let rest := cs.dropWhile Char.isDigit
    let (fraction, rest) :=
      match rest with
      | '.' :: r => (r.takeWhile Char.isDigit, r.dropWhile Char.isDigit)
      | r => ([], r)
    if whole.isEmpty && fraction.isEmpty then none
    else
      (exponentPart? rest).map fun e =>
        .ofDecimal negative (digitsValue (whole ++ fraction)) (e - fraction.length)

/-- The value of a real numeral. -/
def real? (s : String) : Option Binary :=
  let cs := trimChars isNumeralBlank (plainNumeral s.toList)
  (dropLowLines none cs).bind fun cs =>
    let (negative, rest) := takeSign cs
    unsignedReal? negative rest

/-- The number of digits up to which a whole numeral is read. -/
def wholeLimit : Nat := 4300

/-- The value of a whole numeral. -/
def whole? (s : String) : Option Int :=
  let cs := trimChars isNumeralBlank (plainNumeral s.toList)
  let (negative, rest) := takeSign cs
  (dropLowLines none rest).bind fun digits =>
    if digits.isEmpty || !digits.all Char.isDigit || Nat.blt wholeLimit digits.length then none
    else some (Binary.signed negative (digitsValue digits))

end DesignAudit.Number
