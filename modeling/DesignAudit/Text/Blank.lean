import DesignAudit.Text.Ranges

/-!
# Blanks

White space in the sense of the Unicode standard, with the four ASCII separators. Trimming,
splitting into words and squeezing all use this one class.
-/

namespace DesignAudit.Text

def blankRanges : Ranges :=
  [(0x9, 0xD), (0x1C, 0x20), (0x85, 0x85), (0xA0, 0xA0), (0x1680, 0x1680), (0x2000, 0x200A),
   (0x2028, 0x2029), (0x202F, 0x202F), (0x205F, 0x205F), (0x3000, 0x3000)]

/-- White space of any kind. -/
def isBlank (c : Char) : Bool := blankRanges.has c

/-- Drops the characters of a class at the end of a text. -/
def dropTrailing (p : Char → Bool) (cs : List Char) : List Char :=
  (cs.reverse.dropWhile p).reverse

/-- Drops the characters of a class at both ends of a text. -/
def trimChars (p : Char → Bool) (cs : List Char) : List Char :=
  dropTrailing p (cs.dropWhile p)

/-- A text without the blanks at both its ends. -/
def trim (s : String) : String := String.ofList (trimChars isBlank s.toList)

/-- A text without the given character at both its ends. -/
def trimOf (c : Char) (s : String) : String := String.ofList (trimChars (· == c) s.toList)

/-- The first run of characters that are not blank, if the text has one. -/
def firstWord? (s : String) : Option String :=
  match (s.toList.dropWhile isBlank).takeWhile (fun c => !isBlank c) with
  | [] => none
  | w => some (String.ofList w)

end DesignAudit.Text
