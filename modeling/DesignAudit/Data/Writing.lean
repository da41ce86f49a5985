import DesignAudit.Data.Value
import DesignAudit.Encoding.Utf16
import DesignAudit.Text.Search

/-!
# Writing a data text

A value is written on one line in plain ASCII: other characters are written as the units of UTF-16.
-/

namespace DesignAudit.Data

open Text

/-- A unit of UTF-16 as an escape of four hexadecimal digits. -/
def unitEscape (u : Nat) : List Char :=
  let ds := Nat.toDigits 16 u
  '\\' :: 'u' :: List.replicate (4 - ds.length) '0' ++ ds

/-- How a character is written within a text. -/
def writtenChar (c : Char) : List Char :=
  match c.toNat with
  | 0x22 => ['\\', '"']
  | 0x5C => ['\\', '\\']
  | 0x08 => ['\\', 'b']
  | 0x0C => ['\\', 'f']
  | 0x0A => ['\\', 'n']
  | 0x0D => ['\\', 'r']
  | 0x09 => ['\\', 't']
  | n => if 0x20 ≤ n ∧ n < 0x7F then [c] else (Encoding.units c).flatMap unitEscape

/-- A text within quotes. -/
def writtenText (s : String) : String :=
  String.ofList ('"' :: s.toList.flatMap writtenChar ++ ['"'])

def writtenReal : Number.Binary → String
  | .infinite negative => if negative then "-Infinity" else "Infinity"
  | .undefined => "NaN"
  | b => b.shown

mutual

def Value.written : Value → String
  | .null => "null"
  | .truth b => if b then "true" else "false"
  | .whole n => toString n
  | .real b => writtenReal b
  | .text s => writtenText s
  | .list xs => "[" ++ join ", " (writtenItems xs) ++ "]"
  | .record ms => "\x7b" ++ join ", " (writtenMembers ms) ++ "\x7d"

def writtenItems : List Value → List String
  | [] => []
  | v :: rest => v.written :: writtenItems rest

def writtenMembers : List (String × Value) → List String
  | [] => []
  | (name, v) :: rest => (writtenText name ++ ": " ++ v.written) :: writtenMembers rest

end

end DesignAudit.Data
