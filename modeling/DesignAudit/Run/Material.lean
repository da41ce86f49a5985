import DesignAudit.Catalog.Shared
import DesignAudit.Encoding.File
import DesignAudit.Fault
import DesignAudit.Normal.Form

/-!
# What a run works with

A run hands to its checks the normal form of a report, its tree, and the catalogue of what it
declares. The tree may be missing where the report has no root.
-/

namespace DesignAudit.Run

open Catalog Encoding Markup DesignAudit.Normal

/-- What the checks of a run are given. -/
structure Material where
  text : String
  root : Option Node
  catalogue : Shared

/-- The normal form of the text in a file. -/
def normalText (bytes : List UInt8) : String := String.ofList (normalised (decode bytes))

/-- What is reported while a file is read and brought into normal form. -/
def readingLog (debug : Bool) (bytes : List UInt8) : List String :=
  readNote bytes :: normalLog debug (decode bytes)

/-- What is reported before the catalogue finds that there is no root. -/
def rootlessLog : List String := buildLog.take 1

/-- The tree of a normal form. -/
def tree (text : String) : Except Fault (Option Node) :=
  match read text with
  | .ok root => .ok root
  | .error reason => .error (.unreadable reason)

def catalogueOf (root : Option Node) : Except Fault Full :=
  match root with
  | some n => .ok (build (Site.root n))
  | none => .error (.noRoot "findall")

end DesignAudit.Run
