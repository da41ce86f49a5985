import DesignAudit.Markup.Reader
import DesignAudit.Text.Quoted

/-!
# Faults

What can end an audit before it has an answer. A fault is told by one line.
-/

namespace DesignAudit

open Markup Text

/-- Why an audit ends without an answer. -/
inductive Fault where
  /-- The text is no document at all. -/
  | unreadable (reason : ReadFault)
  /-- The document has no root element; the first request made of it is named. -/
  | noRoot (request : String)
  /-- A comment or processing instruction was asked for an attribute. -/
  | remarkAttribute
  /-- A coordinate is not a number. -/
  | notReal (text : String)
  /-- A coordinate is the undefined value. -/
  | undefinedCoordinate
  /-- A coordinate is infinite. -/
  | infiniteCoordinate
  /-- The tables of a calculation are asked for before any were found. -/
  | tablesUnknown
  /-- The query patterns are asked for before they were set up. -/
  | patternsUnknown
  /-- No script name is known to search for. -/
  | noScriptNames
  /-- A list has no member at a position. -/
  | noSuchMember
  deriving DecidableEq, Repr

def Fault.message : Fault → String
  | .unreadable reason => reason.message
  | .noRoot request => s!"'NoneType' object has no attribute '{request}'"
  | .remarkAttribute => "'lxml.etree._ImmutableMapping' object has no attribute 'get'"
  | .notReal s => "could not convert string to float: " ++ quoted s
  | .undefinedCoordinate => "cannot convert float NaN to integer"
  | .infiniteCoordinate => "cannot convert float infinity to integer"
  | .tablesUnknown =>
    "cannot access local variable 'found_tables' where it is not associated with a value"
  | .patternsUnknown =>
    "cannot access local variable 'sql_patterns' where it is not associated with a value"
  | .noScriptNames =>
    "Not an Aho-Corasick automaton yet: call add_word to add some keys and call make_automaton " ++
      "to convert the trie to an automaton."
  | .noSuchMember => "list index out of range"

/-- The root of a document, for a use whose first request is named. -/
def openDocument (request raw : String) : Except Fault Site :=
  match read raw with
  | .error reason => .error (.unreadable reason)
  | .ok none => .error (.noRoot request)
  | .ok (some n) => .ok (Site.root n)

end DesignAudit
