import DesignAudit.FieldUse.Elsewhere
import DesignAudit.Sheet.Cell
import DesignAudit.Text.Listing

/-!
# The audit of fields

Each declared field gives a row with its uses. Fields without any use come first. Some fields are
told apart by their names: comments, cached results, system fields, and the fields of import tables.
-/

namespace DesignAudit.FieldUse

open Markup Text Sheet Catalog

/-- The standing of a field. -/
inductive Status where
  | unused
  | cached
  | system
  | comment
  | imported
  | used
  deriving DecidableEq, Repr

def Status.text : Status → String
  | unused => "Not Used"
  | cached => "Cached"
  | system => "System"
  | comment => "Comment"
  | imported => "Imported"
  | used => "Used"

def Status.rank : Status → Nat
  | unused => 0
  | cached => 1
  | system => 2
  | comment => 3
  | imported => 4
  | used => 5

def systemFields : List String :=
  ["CreatedBy", "DateCreated_c", "ModificationTimestamp", "CreationTimestamp", "ModifiedBy",
   "PrimaryKey", "Count_s"]

/-- The keys of the cached fields of a table: a field and the cache that bears its name. -/
def cachedPairs (table : String) (names : List String) : List String :=
  (names.filter (endsWith "_c")).flatMap fun field =>
    let cache := skipLast 2 field ++ "_cache"
    if names.contains cache then [fieldKey table field, fieldKey table cache] else []

def cachedKeys (fields : Fields) : List String :=
  fields.entries.flatMap fun (table, fs) => cachedPairs table fs.names

def isImportTable (table : String) : Bool :=
  has "Import" table || has "import" table || beginsWith "imp_" table

def statusOf (cached : List String) (table field : String) (uses : Nat) : Status :=
  if beginsWith "#" field then .comment
  else if cached.contains (fieldKey table field) then .cached
  else if systemFields.contains field then .system
  else if isImportTable table then .imported
  else if uses = 0 then .unused
  else .used

/-- How often a field's name occurs in the text of the document. Names of two characters or fewer
are not counted. -/
def occurrenceCount (text : List Char) (field : String) : Nat :=
  if field.length ≤ 2 then 0 else countParts field.toList text

/-- How often the names of all fields occur in the text of the document. -/
def occurrenceCounts (fields : Fields) (text : List Char) : Register Nat :=
  .ofList (fields.pairs.map fun (table, field) =>
    (fieldKey table field, occurrenceCount text field))

structure Row where
  table : String
  field : String
  status : Status
  uses : List Use
  count : Nat

/-- The number of uses of the field of a row. -/
def Row.total (r : Row) : Nat := r.uses.length

/-- The descriptions of the uses in one kind of place. -/
def Row.at (r : Row) (place : Place) : List String :=
  (r.uses.filter (·.place == place)).map (·.text)

def rowOf (cached : List String) (counts : Register Nat) (uses : List Use)
    (table field : String) : Row :=
  let key := fieldKey table field
  let own := uses.filter (·.key == key)
  { table, field, uses := own
    status := statusOf cached table field own.length
    count := counts.getD key 0 }

/-- The rows of all fields, by table and field. -/
def rowsOf (fields : Fields) (text : List Char) (uses : List Use) : List Row :=
  let cached := cachedKeys fields
  let counts := occurrenceCounts fields text
  (sortBy (·.1) fields.entries).flatMap fun (table, fs) =>
    (sorted fs.names).map (rowOf cached counts uses table)

/-- Rows by standing, then by table, then by field. -/
def arranged (rows : List Row) : List Row :=
  sortBy (fun r => r.status.rank) (sortBy (lower ·.table) (sortBy (lower ·.field) rows))

def Row.cells (r : Row) : Sheet.Row :=
  [("Table Name", .text r.table),
   ("Field Name", .text r.field),
   ("Status", .text r.status.text),
   ("Usage Count", .whole r.total),
   ("XML Count", .whole r.count),
   ("Used in Layouts", .text (shortList (r.at .layout))),
   ("Used in Scripts", .text (shortList (r.at .script))),
   ("Used in Calculations", .text (shortList (r.at .calculation))),
   ("Used in SQL", .text (shortList (r.at .query))),
   ("Used in Other", .text (shortList
      (r.at .valueList ++ r.at .relationship ++ r.at .webViewer)))]

/-- The uses of fields outside of layouts. -/
def otherUses (s : Scope) (root : Site) : List Use :=
  usesInScripts s root ++ usesInFields s root ++ usesInFunctions s root ++ usesInQueries s root ++
  usesInRelationships s root ++ usesInValueLists s root ++ usesInTexts s root

/-- What an audit reports that ends with a fault. -/
def failed (log : List String) (fault : Fault) : Findings :=
  { log := log ++ ["Error in UnusedFieldsCheck: " ++ fault.message] }

/-- The audit of the fields of a document. -/
def audit (raw : String) : Findings :=
  let start := ["Starting Field Usage Check"]
  match openDocument "findall" raw with
  | .error fault => failed start fault
  | .ok root =>
    let occurrences := declaredOccurrences root
    let fields := fieldsByTable occurrences root
    let total := fields.count
    let found := start ++ ["  Finding all fields..."] ++
      ((root.all "BaseTable").filterMap (·.node.named? "name")).map ("    Found table: " ++ ·) ++
      [s!"  Found {total} fields in {fields.size} tables"]
    if total = 0 then { log := found ++ ["  No fields found in XML"] }
    else
      let counted := found ++
        ["  Counting XML occurrences...", "    XML counting complete", "  Tracking field usage...",
         "    Checking layouts..."]
      let scope := Scope.ofCatalog fields occurrences
      match usesOnLayouts scope root with
      | .error fault => failed counted fault
      | .ok uses =>
        let rows := (arranged (rowsOf fields raw.toList (uses ++ otherUses scope root))).map
          Row.cells
        { log := counted ++
            ["    Checking scripts...", "    Checking field calculations...",
             "    Checking custom functions...", "    Checking SQL usage...",
             "    Checking relationships...", "    Checking value lists...",
             "    Checking text object merge fields...", "  Building results...",
             s!"Final result has {rows.length} rows"] ++
            match rows with
            | [] => []
            | r :: _ => ["Columns in first row: " ++ quotedList (r.map (·.1))]
          rows }

end DesignAudit.FieldUse
