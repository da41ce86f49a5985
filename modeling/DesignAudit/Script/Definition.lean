import DesignAudit.Markup.Node
import DesignAudit.Register
import DesignAudit.Text.Search

/-!
# Definitions of scripts

A script element either defines a script or refers to one. It defines a script when it has steps, or
when it stands in a list of scripts; an element that only grants access defines none.
-/

namespace DesignAudit.Script

open Markup Text

/-- Whether an element only grants access to a script. -/
def grantsAccess (s : Site) : Bool := s.holds "Access" && !s.holds "StepList"

/-- Whether one of the ten nearest elements around a place is a list of scripts. -/
def isListed (s : Site) : Bool :=
  (s.above.take 10).any fun n => ["Scripts", "ScriptCatalog", "ScriptList"].contains n.tag

/-- Whether a script element defines a script. -/
def isDefinition (s : Site) : Bool :=
  !grantsAccess s && (s.holds "Step" || isListed s)

/-- The elements that define scripts, in document order. -/
def definitions (root : Site) : List Site := (root.all "Script").filter isDefinition

/-- What elements are known by in the two passes over a document: `first` when definitions are
looked for, and `again` when references are. An element need not keep its mark from one pass to the
next. -/
class Marks where
  first : Site → List Nat
  again : Site → List Nat

/-- Elements are known by their addresses where no other marks are given. -/
instance : Marks := ⟨Site.address, Site.address⟩

/-- The elements that refer to scripts, in document order: those without the mark of a definition.
-/
def references [Marks] (root : Site) : List Site :=
  let marks := (definitions root).map Marks.first
  (root.all "Script").filter fun s => !marks.contains (Marks.again s)

/-- The path of a folder: the names of the folders around it, at most ten of them, and its own. -/
def folderPath (group : Site) : String :=
  let around := (group.above.takeWhile (·.tag == "Group")).take 10
  join "/" ((around.map (·.attr "name")).reverse ++ [group.node.attr "name"])

/-- The folder of each script id. Of the folders that hold an id the last one counts. -/
def folders (root : Site) : Register String :=
  .ofList ((root.all "Group").flatMap fun g =>
    let path := folderPath g
    (g.all "Script").filterMap fun s => (s.node.named? "id").map (·, path))

/-- The scripts that a document defines. -/
structure Index where
  /-- The folder of each script, by name. -/
  folders : Register String
  /-- The name of the script with an id. -/
  byId : Register String

/-- The name a definition gives to its script. -/
def definedName (s : Site) : String := s.node.attrD "name" "Unknown Script"

/-- The scripts defined in a document. -/
def Index.of (root : Site) : Index :=
  let folderOf := Script.folders root
  let named := (definitions root).filter fun s => definedName s != ""
  { folders := .ofList (named.map fun s => (definedName s, folderOf.getD (s.node.attr "id") ""))
    byId := .ofList (named.filterMap fun s => (s.node.named? "id").map (·, definedName s)) }

/-- The names of the scripts, in the order of their first definitions. -/
def Index.names (i : Index) : List String := i.folders.names

/-- Whether a script of this name is defined. -/
def Index.has (i : Index) (name : String) : Bool := i.folders.has name

/-- The script that a reference means: the one with its id, or else the one of its name. -/
def Index.resolve? (i : Index) (reference : Node) : Option String :=
  match (reference.named? "id").bind i.byId.get? with
  | some name => some name
  | none => (reference.attr? "name").filter i.has

end DesignAudit.Script
