import DesignAudit.Catalog.Basic

/-!
# The schema that queries are checked against

The tables and fields that a query may name. Fields of a field catalogue count for the table name
they give, which is not resolved to a base table, and occurrences declared as tables count as
tables.
-/

namespace DesignAudit.Query

open Markup Catalog

/-- The tables, the fields of each table, and the occurrences of tables. -/
structure Schema where
  tables : List String
  fields : Register (List String)
  occurrences : Register String

def addName (names : List String) (name : String) : List String :=
  if names.contains name then names else names ++ [name]

/-- The fields by the table name they are declared with. -/
def fieldNames (root : Site) : List (String × String) :=
  (fieldsInTables root).map (fun (table, f) => (table, f.name)) ++
  (fieldsWithTable root).map (fun (table, f) => (table, f.name)) ++
  (cataloguedTables root).flatMap fun (table, t) => (cataloguedFields t).map (table, ·.name)

def tableNames (root : Site) : List String :=
  (root.all "BaseTable").filterMap (·.node.named? "name") ++
  (fieldsWithTable root).map (·.1) ++
  (cataloguedTables root).map (·.1) ++
  (root.all "TableOccurrence").filterMap (·.node.named? "baseTable") ++
  (root.all "Table").filterMap (·.node.named? "name")

def Schema.ofRoot (root : Site) : Schema where
  tables := (tableNames root).foldl addName []
  fields := (fieldNames root).foldl (fun r (table, f) => r.update table [] (addName · f)) .empty
  occurrences := declaredOccurrences root

end DesignAudit.Query
