import DesignAudit.Catalog.Basic

/-!
# Uses of fields

A use is recorded for a field under the joined name of its table and itself, with the kind of place
it was found in and a description. Only fields that are declared can be used.
-/

namespace DesignAudit.FieldUse

open Catalog

/-- The kind of place that uses a field. -/
inductive Place where
  | layout
  | script
  | calculation
  | query
  | valueList
  | relationship
  | webViewer
  deriving DecidableEq, Repr

structure Use where
  key : String
  place : Place
  text : String
  deriving DecidableEq, Repr

/-- The joined name of a table and a field. -/
def fieldKey (table field : String) : String := table ++ "::" ++ field

/-- The declared fields with their ids, and the occurrences of tables. -/
structure Scope where
  /-- The fields of each table; a field may have an id. -/
  fields : Register (Register (Option String))
  occurrences : Register String

namespace Scope

def ofCatalog (fields : Fields) (occurrences : Register String) : Scope where
  fields := ⟨fields.entries.map fun (table, fs) =>
    (table, ⟨fs.entries.map fun (name, f) => (name, some f.id)⟩)⟩
  occurrences := occurrences

def base (s : Scope) (table : String) : String := Catalog.base s.occurrences table

def hasField (s : Scope) (table field : String) : Bool :=
  match s.fields.get? table with
  | some fs => fs.has field
  | none => false

def fieldsOf (s : Scope) (table : String) : List String :=
  match s.fields.get? table with
  | some fs => fs.names
  | none => []

/-- All pairs of a table and a field, in order of declaration. -/
def pairs (s : Scope) : List (String × String) :=
  s.fields.entries.flatMap fun (table, fs) => fs.names.map (table, ·)

/-- The key of a field of a base table that is named with any occurrence of the table. -/
def key? (s : Scope) (table field : String) : Option String :=
  let base := s.base table
  if s.hasField base field then some (fieldKey base field) else none

/-- The key of a field; where the base table has no such field, the table itself is tried. -/
def nearKey? (s : Scope) (table field : String) : Option String :=
  match s.key? table field with
  | some key => some key
  | none => if s.hasField table field then some (fieldKey table field) else none

/-- The use of a field that is named with its table, both of which have to be given. -/
def use (s : Scope) (place : Place) (text table field : String) : List Use :=
  if field == "" || table == "" then []
  else
    match s.key? table field with
    | some key => [⟨key, place, text⟩]
    | none => []

/-- The uses of a field name in all tables that have such a field. -/
def usesAnywhere (s : Scope) (place : Place) (text field : String) : List Use :=
  s.fields.entries.filterMap fun (table, fs) =>
    if fs.has field then some ⟨fieldKey table field, place, text⟩ else none

end Scope

end DesignAudit.FieldUse
