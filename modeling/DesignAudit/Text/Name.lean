import DesignAudit.Text.Case
import DesignAudit.Text.Letter

/-!
# Names without regard to case

The characters of a name are the ASCII letters, digits and the low line. Where case does not matter,
the characters that share a letter's other form count as that letter.
-/

namespace DesignAudit.Text

/-- A character of a name, case disregarded. -/
def isName (c : Char) : Bool :=
  isIdentifier (lowerChar c) || c.toNat == 0x131 || c.toNat == 0x17F

/-- A text in capitals, as far as keywords are concerned. -/
def capitals (s : List Char) : String := String.ofList (s.flatMap keywordUpper)

end DesignAudit.Text
