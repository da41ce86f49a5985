import DesignAudit.Catalog.Basic
import DesignAudit.Catalog.Folder

/-!
# The catalogue of a report

All that a report declares, by name: scripts, layouts, tables with their fields, table occurrences,
custom functions, value lists and relationships. It is built once and shared by the audits.
-/

namespace DesignAudit.Catalog

open Markup

/-- A script or layout: its id and the folder it is in. -/
structure Placed where
  id : String
  path : String
  deriving DecidableEq, Repr

structure Table where
  id : String
  fields : Register Field
  deriving Repr

/-- A relationship between two table occurrences. -/
structure Relation where
  id : String
  left : Option String
  right : Option String
  deriving DecidableEq, Repr

/-- All that a report declares. -/
structure Full where
  scripts : Register Placed
  layouts : Register Placed
  tables : Register Table
  occurrences : Register String
  functions : Register String
  valueLists : Register String
  relationships : Register Relation
  fieldsByTable : Fields
  scriptPaths : Register String
  layoutPaths : Register String

/-- The tables declared by base-table elements. Of two tables of one name the later one counts. -/
def tablesInDocument (root : Site) : Register Table :=
  (root.all "BaseTable").foldl (fun ts t =>
    match t.node.named? "name" with
    | none => ts
    | some table =>
      let fields := (t.all "Field").filterMap fun f =>
        (f.node.named? "name").map fun name => (name, Field.ofNode name f.node)
      ts.insert table ⟨t.node.attr "id", .ofList fields⟩) .empty

/-- Enters a field of a table, which is made up without an id if it is missing. -/
def enterField (ts : Register Table) (table : String) (f : Field) : Register Table :=
  ts.update table ⟨"", .empty⟩ fun t => { t with fields := t.fields.insert f.name f }

def tables (occurrences : Register String) (root : Site) : Register Table :=
  let ts := (fieldsWithTable root).foldl
    (fun ts (table, f) => enterField ts (base occurrences table) f) (tablesInDocument root)
  (cataloguedTables root).foldl (fun ts (table, t) =>
    let ts := if ts.has table then ts else ts.insert table ⟨t.node.attr "id", .empty⟩
    (cataloguedFields t).foldl (fun ts f => enterField ts table f) ts) ts

/-- The items of a kind in all catalogues of that kind that have both an id and a name, with their
folders. -/
def placedItems (catalogue kind : String) (root : Site) : List (String × Placed) :=
  (root.all catalogue).flatMap fun c =>
    (itemsIn kind [] c.node.children).filterMap fun (n, path) =>
      if n.attr "id" != "" && n.attr "name" != "" then
        some (n.attr "name", ⟨n.attr "id", pathText path⟩)
      else none

/-- Adds an element under its name unless the name is taken. -/
def addOther (r : Register Placed) (s : Site) : Register Placed :=
  match s.node.named? "name" with
  | some name => if r.has name then r else r.insert name ⟨s.node.attr "id", "Unknown"⟩
  | none => r

/-- Adds the items of a kind that stand elsewhere, without replacing any. -/
def withOthers (kind : String) (root : Site) (items : Register Placed) : Register Placed :=
  (root.all kind).foldl addOther items

/-- The ids of all elements of a kind that have a name. -/
def idsOf (kind : String) (root : Site) : Register String :=
  .ofList ((root.all kind).filterMap fun s =>
    (s.node.named? "name").map (·, s.node.attr "id"))

def relationshipsOf (root : Site) : Register Relation :=
  .ofList ((root.all "Relationship").filterMap fun s =>
    (s.node.named? "name").map fun name =>
      let side (tag : String) := (s.first? tag).bind (·.node.attr? "name")
      (name, ⟨s.node.attr "id", side "LeftTable", side "RightTable"⟩))

/-- The catalogue of a report. -/
def build (root : Site) : Full :=
  let occ := occurrences root
  let scripts := placedItems "ScriptCatalog" "Script" root
  let layouts := placedItems "LayoutCatalog" "Layout" root
  { scripts := withOthers "Script" root (.ofList scripts)
    layouts := withOthers "Layout" root (.ofList layouts)
    tables := tables occ root
    occurrences := occ
    functions := idsOf "CustomFunction" root
    valueLists := idsOf "ValueList" root
    relationships := relationshipsOf root
    fieldsByTable := fieldsByTable occ root
    scriptPaths := .ofList (scripts.map fun (name, p) => (name, p.path))
    layoutPaths := .ofList (layouts.map fun (name, p) => (name, p.path)) }

/-- What is reported while the catalogue is built. -/
def buildLog : List String :=
  ["  Building table occurrences catalog...", "  Building tables and fields catalog...",
   "  Building scripts catalog...", "  Building layouts catalog...",
   "  Building other catalogs...", "  Catalog building complete!"]

end DesignAudit.Catalog
