import DesignAudit.Query.Schema
import DesignAudit.Query.Statement

/-!
# Verdicts on a query

A table is missing when its base table is not declared, and a field is missing when its table is
missing or has no such field. A table that is named by an occurrence is only warned of.
-/

namespace DesignAudit.Query

open Catalog

/-- The base table of a name in a query. -/
def Schema.base (s : Schema) (table : String) : String := Catalog.base s.occurrences table

/-- Whether a name stands for a declared table. -/
def Schema.knows (s : Schema) (table : String) : Bool := s.tables.contains (s.base table)

/-- Whether a name in a query is an occurrence of another table. -/
def Schema.isOccurrence (s : Schema) (table : String) : Bool := s.base table != table

/-- Whether the base table of a name has a field. -/
def Schema.hasField (s : Schema) (table field : String) : Bool :=
  (s.fields.getD (s.base table) []).contains field

/-- The report on a field of a known table, or nothing if the field exists. -/
def Schema.absent? (s : Schema) (table field shown : String) : Option String :=
  if s.hasField table field then none
  else if s.isOccurrence table then some (shown ++ " (TO→" ++ s.base table ++ ")")
  else some shown

/-- How a missing field is reported, or nothing if the field exists. A field of no table has to be one
of any table. -/
def Schema.missing? (s : Schema) (shown : String) : Option String :=
  match FieldRef.ofText shown with
  | some (.ofTable table field) =>
    if s.knows table then s.absent? table field shown else some shown
  | some (.ofAlias nick field) =>
    if s.knows nick then s.absent? nick field shown else some (shown ++ " (possible alias)")
  | none =>
    if s.fields.values.any (·.contains shown) then none else some (shown ++ " (unqualified)")

/-- What is wrong with a query. -/
structure Verdict where
  missingTables : List String
  missingFields : List String
  occurrences : List String
  deriving Repr

/-- The verdict on the tables and fields of a calculation. -/
def Schema.judge (s : Schema) (tables fields : List String) : Verdict where
  missingTables := tables.filter fun t => !s.knows t
  missingFields := fields.filterMap s.missing?
  occurrences := tables.filter s.isOccurrence

/-- The gravest thing that is wrong. -/
def Verdict.status (v : Verdict) : String :=
  if !v.missingTables.isEmpty then "Missing Table"
  else if !v.missingFields.isEmpty then "Missing Field"
  else if !v.occurrences.isEmpty then "Not Base Table"
  else ""

/-- All kinds of things that are wrong. -/
def Verdict.reasons (v : Verdict) : List String :=
  (if v.missingTables.isEmpty then [] else ["Missing tables"]) ++
  (if v.missingFields.isEmpty then [] else ["Missing fields"]) ++
  (if v.occurrences.isEmpty then [] else ["Table occurrence"])

end DesignAudit.Query
