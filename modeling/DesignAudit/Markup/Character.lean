import DesignAudit.Text.LineEnd
import DesignAudit.Text.Ranges

/-!
# Characters of markup

The characters a document may hold, those a name may begin with and those it may go on with, and
the blanks between the parts of a tag.
-/

namespace DesignAudit.Markup

open Text

/-- White space between the parts of a tag. -/
def isSpace (c : Char) : Bool := c == ' ' || c == '\t' || c == '\n' || c == '\r'

/-- Characters that a document may hold. -/
def isLegal (c : Char) : Bool :=
  let n := c.toNat
  isSpace c || (Nat.ble 0x20 n && n != 0xFFFE && n != 0xFFFF)

/-- Characters beyond ASCII that a name may begin with. -/
def nameStartRanges : Ranges :=
  [(0xC0, 0xD6), (0xD8, 0xF6), (0xF8, 0x2FF), (0x370, 0x37D), (0x37F, 0x1FFF), (0x200C, 0x200D),
   (0x2070, 0x218F), (0x2C00, 0x2FEF), (0x3001, 0xD7FF), (0xF900, 0xFDCF), (0xFDF0, 0xFFFD),
   (0x10000, 0xEFFFF)]

/-- Further characters beyond ASCII that a name may hold. -/
def nameMoreRanges : Ranges := [(0xB7, 0xB7), (0x300, 0x36F), (0x203F, 0x2040)]

/-- Characters that a name may begin with. -/
def isNameStart (c : Char) : Bool :=
  c.isAlpha || c == '_' || c == ':' || nameStartRanges.has c

/-- Characters that a name may hold. -/
def isNameChar (c : Char) : Bool :=
  isNameStart c || c.isDigit || c == '-' || c == '.' || nameMoreRanges.has c

/-- Splits off a name; it is empty where no name begins. -/
def takeName (cs : List Char) : List Char × List Char :=
  match cs with
  | c :: _ => if isNameStart c then cs.span isNameChar else ([], cs)
  | [] => ([], [])

/-- The text before the first occurrence of `stop`, and the text after it. -/
def splitAt? (stop : List Char) : List Char → Option (List Char × List Char)
  | [] => none
  | c :: rest =>
    if stop.isPrefixOf (c :: rest) then some ([], (c :: rest).drop stop.length)
    else (splitAt? stop rest).map fun (before, after) => (c :: before, after)

end DesignAudit.Markup
