import DesignAudit.Normal.Pictograph
import DesignAudit.Text.Search

/-!
# The normal form of a text

Before a design report is read, its pictographs become plus signs, double question marks (what some
exports leave of a pictograph) do too, typographic quotes become plain ones, and a quote is kept apart
from the end of an empty-element tag or from a semicolon by a space.
-/

namespace DesignAudit.Normal

open Text

/-- What some exports leave of a pictograph. -/
def lostPictograph : String := "??"

/-- The replacements, in the order in which they are made. -/
def replacements : List (String × String) :=
  [(lostPictograph, "+"),
   ("“", "\""), ("”", "\""), ("„", "\""), ("‟", "\""), ("‘", "'"), ("’", "'"),
   ("\"/>", "\" />"), ("'/>", "' />"), ("\";", "\" ;"), ("';", "' ;")]

/-- Makes all replacements, one after the other. -/
def replaced (text : List Char) : List Char :=
  replacements.foldl (fun t (part, new) => replaceParts part.toList new.toList t) text

def normalised (text : List Char) : List Char := replaced (withoutPictographs category text)

/-- What is reported about the normal form of a text. -/
def normalLog (debug : Bool) (text : List Char) : List String :=
  let found := pictographCount category text
  let lost := countParts lostPictograph.toList (withoutPictographs category text)
  let plus := (normalised text).count '+'
  (if debug && 0 < found then [replacedNote found] else []) ++
  [s!"Found {lost} occurrences of \"??\" in raw_xml", s!"raw contains '+': {plus}"]

end DesignAudit.Normal
