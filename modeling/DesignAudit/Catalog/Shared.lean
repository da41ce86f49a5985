import DesignAudit.Catalog.Full
import DesignAudit.Data.Value

/-!
# Shared catalogues

The audits of one run share a catalogue, which is either built from the report or taken from what an
earlier run has kept. A catalogue that was kept may lack parts; what is lacking is noticed by whoever
asks for it.
-/

namespace DesignAudit.Catalog

open Data

inductive Part where
  | scripts
  | layouts
  | tables
  | occurrences
  | functions
  | valueLists
  | relationships
  | fieldsByTable
  | scriptPaths
  | layoutPaths
  deriving DecidableEq, Repr

namespace Part

def name : Part → String
  | scripts => "scripts"
  | layouts => "layouts"
  | tables => "tables"
  | occurrences => "table_occurrences"
  | functions => "custom_functions"
  | valueLists => "value_lists"
  | relationships => "relationships"
  | fieldsByTable => "fields_by_table"
  | scriptPaths => "script_paths"
  | layoutPaths => "layout_paths"

def all : List Part :=
  [scripts, layouts, tables, occurrences, functions, valueLists, relationships, fieldsByTable,
   scriptPaths, layoutPaths]

/-- The parts that the audit of unknown references asks for, in this order. -/
def ofReferences : List Part :=
  [scripts, layouts, tables, fieldsByTable, functions, valueLists, relationships, occurrences,
   scriptPaths, layoutPaths]

end Part

/-- A catalogue, and the parts it lacks, which are empty in it. -/
structure Shared where
  catalogue : Full
  lacking : List Part := []

def Shared.firstLacking? (c : Shared) (parts : List Part) : Option Part :=
  parts.find? fun p => c.lacking.contains p

/-! ## Catalogues as data -/

/-- The entries of a record, each read by `f`. -/
def entriesOf {α : Type} (f : Value → α) (v : Value) : Register α :=
  .ofList (v.members.map fun (name, x) => (name, f x))

/-- The text of a member, empty if there is none. -/
def memberText (v : Value) (name : String) : String := ((v.member? name).bind Value.text?).getD ""

/-- A script or layout from data. -/
def Placed.ofData (v : Value) : Placed := ⟨memberText v "id", memberText v "path"⟩

def fieldsOfData (v : Value) : Register Field :=
  .ofList (v.members.map fun (name, x) => (name, ⟨name, memberText x "id", memberText x "type"⟩))

def Table.ofData (v : Value) : Table :=
  ⟨memberText v "id", fieldsOfData ((v.member? "fields").getD .null)⟩

def Relation.ofData (v : Value) : Relation :=
  ⟨memberText v "id", (v.member? "left_table").bind Value.text?,
    (v.member? "right_table").bind Value.text?⟩

def Shared.ofData (v : Value) : Shared :=
  let part (p : Part) := (v.member? p.name).getD .null
  { catalogue :=
      { scripts := entriesOf Placed.ofData (part .scripts)
        layouts := entriesOf Placed.ofData (part .layouts)
        tables := entriesOf Table.ofData (part .tables)
        occurrences := entriesOf (fun x => (x.text?).getD "") (part .occurrences)
        functions := entriesOf (memberText · "id") (part .functions)
        valueLists := entriesOf (memberText · "id") (part .valueLists)
        relationships := entriesOf Relation.ofData (part .relationships)
        fieldsByTable := entriesOf fieldsOfData (part .fieldsByTable)
        scriptPaths := entriesOf (fun x => (x.text?).getD "") (part .scriptPaths)
        layoutPaths := entriesOf (fun x => (x.text?).getD "") (part .layoutPaths) }
    lacking := Part.all.filter fun p => (v.member? p.name).isNone }

end DesignAudit.Catalog
