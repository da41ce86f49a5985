import DesignAudit.Markup.Node
import DesignAudit.Register
import DesignAudit.Text.Search

/-!
# Tables, fields and table occurrences

A table occurrence is another name under which a base table is used. The declarations of a report
are read in a fixed order, and a later declaration of the same name replaces an earlier one.
-/

namespace DesignAudit.Catalog

open Markup

structure Field where
  name : String
  id : String
  type : String
  deriving DecidableEq, Repr

abbrev Fields := Register (Register Field)

/-- The field that an element declares under a name. -/
def Field.ofNode (name : String) (n : Node) : Field := ⟨name, n.attr "id", n.attr "dataType"⟩

/-- The declaration of a table occurrence: its name and its base table. -/
def occurrence? (s : Site) : Option (String × String) :=
  match s.node.named? "name", s.node.named? "baseTable" with
  | some name, some base => some (name, base)
  | _, _ => none

/-- The occurrences declared by tables and by table occurrences, these last. -/
def declaredOccurrences (root : Site) : Register String :=
  .ofList ((root.all "Table").filterMap occurrence? ++
    (root.all "TableOccurrence").filterMap occurrence?)

/-- The occurrences declared anywhere, those of a relationship graph last. -/
def occurrences (root : Site) : Register String :=
  (declaredOccurrences root).insertAll
    ((root.allBelow "RelationshipGraph" "TableOccurrence").filterMap occurrence?)

/-- The base table of a name: that of the occurrence of this name, or the name itself. -/
def base (occurrences : Register String) (name : String) : String := occurrences.getD name name

/-- The fields declared inside base tables: table, field name and field, in document order. -/
def fieldsInTables (root : Site) : List (String × Field) :=
  (root.all "BaseTable").flatMap fun t =>
    match t.node.named? "name" with
    | none => []
    | some table =>
      (t.all "Field").filterMap fun f =>
        (f.node.named? "name").map fun name => (table, Field.ofNode name f.node)

/-- The fields of field catalogues that say which table they belong to: the table as written, and
the field. -/
def fieldsWithTable (root : Site) : List (String × Field) :=
  (root.allPath "FieldCatalog" ["Field"]).filterMap fun f =>
    match f.node.named? "name", f.node.named? "table" with
    | some name, some table => some (table, Field.ofNode name f.node)
    | _, _ => none

/-- The base tables of base-table catalogues. -/
def cataloguedTables (root : Site) : List (String × Site) :=
  (root.all "BaseTableCatalog").flatMap fun c =>
    (c.all "BaseTable").filterMap fun t => (t.node.named? "name").map (·, t)

/-- The fields in the field catalogues of a base table. -/
def cataloguedFields (table : Site) : List Field :=
  (table.allPath "FieldCatalog" ["Field"]).filterMap fun f =>
    (f.node.named? "name").map fun name => Field.ofNode name f.node

/-- All field declarations in the order in which they are read, each with its base table. -/
def fieldDeclarations (occurrences : Register String) (root : Site) : List (String × Field) :=
  fieldsInTables root ++
  (fieldsWithTable root).map (fun (table, f) => (base occurrences table, f)) ++
  (cataloguedTables root).flatMap fun (table, t) => (cataloguedFields t).map (table, ·)

def Fields.enter (fs : Fields) (table : String) (f : Field) : Fields :=
  fs.update table .empty (·.insert f.name f)

/-- The fields of each table, by all the ways in which a report declares them. -/
def fieldsByTable (occurrences : Register String) (root : Site) : Fields :=
  (fieldDeclarations occurrences root).foldl (fun fs (table, f) => fs.enter table f) .empty

def Fields.hasField (fs : Fields) (table field : String) : Bool :=
  match fs.get? table with
  | some t => t.has field
  | none => false

def Fields.fieldNames (fs : Fields) (table : String) : List String :=
  match fs.get? table with
  | some t => t.names
  | none => []

/-- All pairs of a table and one of its fields. -/
def Fields.pairs (fs : Fields) : List (String × String) :=
  fs.entries.flatMap fun (table, t) => t.names.map (table, ·)

def Fields.count (fs : Fields) : Nat := (fs.values.map Register.size).foldr (· + ·) 0

end DesignAudit.Catalog
