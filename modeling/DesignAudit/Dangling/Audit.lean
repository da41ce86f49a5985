import DesignAudit.Catalog.Full
import DesignAudit.Dangling.Status
import DesignAudit.FieldUse.Calculation
import DesignAudit.Layout.Place
import DesignAudit.Sheet.Cell

/-!
# The audit of dangling references

Every reference to a script, layout, table, field or custom function that the catalogue does not
know gives a row. Rows are ordered by kind, owner and location.
-/

namespace DesignAudit.Dangling

open Markup Text Text.Pattern Sheet
open Layout (positionText)

/-- The kind of place that a reference stands in. -/
inductive Kind where
  | script
  | fieldCalculation
  | layoutField
  | layoutObject
  | function
  | valueList
  | relationship
  deriving DecidableEq, Repr

def Kind.text : Kind → String
  | script => "Script"
  | fieldCalculation => "Field Calc"
  | layoutField => "Layout Field"
  | layoutObject => "Layout Object"
  | function => "Custom Function"
  | valueList => "Value List"
  | relationship => "Relationship"

def Kind.rank : Kind → Nat
  | script => 0
  | fieldCalculation => 1
  | layoutField => 2
  | layoutObject => 3
  | function => 4
  | valueList => 5
  | relationship => 6

structure Row where
  status : Status
  kind : Kind
  context : String
  location : String
  commented : Bool
  error : String
  line : Nat
  details : String

/-- Where a reference stands, and what tells its standing. -/
structure Spot where
  kind : Kind
  /-- The script, layout or table that owns the place. -/
  context : String
  location : String
  /-- The full location, from which the folder is read. -/
  full : String
  evidence : Evidence

/-- A reference that leads nowhere: the error, the line, and what is not found. -/
structure Problem where
  error : String
  line : Nat
  details : String

/-- What the catalogue knows, as far as references are concerned. -/
structure Known where
  catalogue : Catalog.Full

variable (k : Known)

def Known.folders : Folders := ⟨k.catalogue.scriptPaths, k.catalogue.layoutPaths⟩

def Known.row (s : Spot) (p : Problem) : Except Fault Row := do
  let status ← statusOf k.folders s.full p.error s.evidence
  return { status, kind := s.kind, context := s.context, location := s.location
           commented := status == .commentedOut || s.evidence.commented
           error := p.error, line := p.line, details := p.details }

def Known.rows (s : Spot) (ps : List Problem) : Except Fault (List Row) :=
  ps.mapM (k.row s)

/-! ## What leads nowhere -/

/-- What is missing of a field reference. -/
inductive Missing where
  | table
  | field
  deriving DecidableEq, Repr

def Known.missing? (table field : String) : Option Missing :=
  let base := Catalog.base k.catalogue.occurrences table
  if !k.catalogue.tables.has base then some .table
  else if !k.catalogue.fieldsByTable.hasField base field then some .field
  else none

/-- The problem of a field element, the details being worded by what refers to the field. -/
def Known.fieldProblem (tableDetails fieldDetails : String) (f : Site) :
    List Problem :=
  match f.node.named? "name", f.node.named? "table" with
  | some field, some table =>
    match k.missing? table field with
    | some .table => [⟨s!"Unknown table: \"{table}\"", f.node.line, tableDetails⟩]
    | some .field => [⟨s!"Unknown field: \"{table}::{field}\"", f.node.line, fieldDetails⟩]
    | none => []
  | _, _ => []

/-- A character of a table name in a calculation. -/
def isTablePart (c : Char) : Bool := isIdentifier c || FieldUse.tableMarks.contains c.toNat

/-- A table and a field in a calculation. -/
def referencePattern : Pattern :=
  all [group (oneOrMore isTablePart), text "::", group (oneOrMore isIdentifier)]

/-- The problems of the fields that a calculation names. Calculations with queries are left to the
audit of queries. -/
def Known.calculationProblems (c : Site) : List Problem :=
  match c.node.written?.filter (fun t => !has "ExecuteSQL" t) with
  | none => []
  | some t =>
    (referencePattern.findPairs t.toList).filterMap fun (table, field) =>
      let table := String.ofList table
      let field := String.ofList field
      match k.missing? table field with
      | some .table => some ⟨s!"Unknown table in calculation: \"{table}\"", c.node.line,
          "Table referenced in calculation not found"⟩
      | some .field => some ⟨s!"Unknown field in calculation: \"{table}::{field}\"", c.node.line,
          "Field referenced in calculation not found"⟩
      | none => none

/-- The problem of an element that names a script. -/
def Known.scriptProblem (details : String) (s : Site) : List Problem :=
  match (s.node.named? "name").filter fun n => !k.catalogue.scripts.has n with
  | some name => [⟨s!"Unknown script: \"{name}\"", s.node.line, details⟩]
  | none => []

/-- The problem of an element that names a layout. -/
def Known.layoutProblem (s : Site) : List Problem :=
  match (s.node.named? "name").filter fun n => !k.catalogue.layouts.has n with
  | some name => [⟨s!"Unknown layout: \"{name}\"", s.node.line, "Referenced layout not found"⟩]
  | none => []

/-! ## Scripts -/

def Known.stepProblems (name : String) (step : Site) : List Problem :=
  (if name == "Perform Script" then
    ((step.first? "Script").toList).flatMap (k.scriptProblem "Referenced script not found")
  else []) ++
  (if name == "Go to Layout" then ((step.first? "Layout").toList).flatMap k.layoutProblem
  else []) ++
  (if name == "Execute SQL" then []
  else (step.all "Field").flatMap
    (k.fieldProblem "Table not found" "Field not found in table")) ++
  (step.all "Calculation").flatMap k.calculationProblems

def stepPlace (step : Site) : String :=
  let name := step.node.attr "name"
  let number := (step.node.named? "index").getD (step.node.attr "id")
  s!"Step {number}: {name}"

def stepSpot (script : String) (step : Site) : Spot :=
  ⟨.script, script, stepPlace step, s!"Script: {script}, {stepPlace step}", .step step.node⟩

def Known.stepRows (script : String) (step : Site) : Except Fault (List Row) :=
  k.rows (stepSpot script step) (k.stepProblems (step.node.attr "name") step)

def Known.scriptRows (script : Site) : Except Fault (List Row) := do
  return (← (script.all "Step").mapM
    (k.stepRows (script.node.attrD "name" "Unknown Script"))).flatten

/-! ## Layouts -/

def layoutSpot (kind : Kind) (layout location : String) : Spot :=
  ⟨kind, layout, location, "Layout: " ++ layout, .none⟩

def Known.fieldRows (layout : String) (object : Site) : Except Fault (List Row) := do
  let position ← positionText object
  k.rows (layoutSpot .layoutField layout ("Field Object " ++ position))
    ((object.first? "Field").toList.flatMap
      (k.fieldProblem "Table not found" "Field not found in table"))

def buttonPlace (object : Site) (position : String) : String :=
  let name := object.node.attrD "name" "Unnamed Button"
  s!"Button: {name} {position}"

def Known.buttonRows (layout : String) (object : Site) : Except Fault (List Row) := do
  let position ← positionText object
  let problem := k.scriptProblem "Script referenced by button not found"
  let single := ((object.first? "SingleStep").bind
    (·.firstWith? "Step" "name" "Perform Script")).bind (·.first? "Script")
  k.rows (layoutSpot .layoutObject layout (buttonPlace object position))
    ((object.all "Script").flatMap problem ++ single.toList.flatMap problem)

def Known.portalProblem (portal : Site) : List Problem :=
  match (portal.node.named? "table").filter fun t =>
      !k.catalogue.tables.has (Catalog.base k.catalogue.occurrences t) with
  | some table =>
    [⟨s!"Unknown portal table: \"{table}\"", portal.node.line, "Portal table not found"⟩]
  | none => []

def Known.portalRows (layout : String) (object : Site) : Except Fault (List Row) := do
  let position ← positionText object
  k.rows (layoutSpot .layoutObject layout ("Portal " ++ position))
    ((object.first? "Portal").toList.flatMap k.portalProblem)

def Known.layoutRows (layout : Site) : Except Fault (List Row) := do
  let name := layout.node.attrD "name" "Unknown Layout"
  let objects (type : String) := layout.allWith "Object" "type" type
  let fields ← (objects "Field").mapM (k.fieldRows name)
  let buttons ← (objects "Button").mapM (k.buttonRows name)
  let portals ← (objects "Portal").mapM (k.portalRows name)
  return fields.flatten ++ buttons.flatten ++ portals.flatten

/-! ## Other places -/

/-- A spot that is told by its location alone. -/
def plainSpot (kind : Kind) (location : String) (evidence : Evidence) : Spot :=
  ⟨kind, "", location, location, evidence⟩

def shownBy (c : Site) : Evidence := .calculation (c.node.text.getD "")

def fieldSpot (table field : String) (evidence : Evidence) : Spot :=
  ⟨.fieldCalculation, table, "Field: " ++ field, s!"Field: {table}::{field}", evidence⟩

def Known.fieldCalculationRows (table : String) (field : Site) :
    Except Fault (List Row) :=
  match field.first? "Calculation" with
  | none => .ok []
  | some c =>
    k.rows (fieldSpot table (field.node.attrD "name" "Unknown Field") (shownBy c))
      (k.calculationProblems c)

def Known.tableRows (table : Site) : Except Fault (List Row) := do
  return (← (table.all "Field").mapM
    (k.fieldCalculationRows (table.node.attrD "name" "Unknown Table"))).flatten

/-- Functions that are always there. -/
def builtInFunctions : List String :=
  ["If", "Let", "Get", "Set", "Sum", "Count", "Max", "Min", "Average", "Date", "Time", "Timestamp",
   "Year", "Month", "Day", "Hour", "Minute", "Second", "Left", "Right", "Middle", "Length",
   "Position", "Substitute", "Trim", "Upper", "Lower", "Proper", "TextStyleAdd", "TextStyleRemove",
   "PatternCount", "Filter", "FilterValues", "GetValue", "ValueCount", "List", "IsEmpty", "IsValid",
   "Case", "Choose", "Evaluate", "Extend", "Lookup", "Last", "GetField", "GetFieldName",
   "GetLayoutObjectAttribute", "Self", "GetNthRecord", "GetRepetition"]

/-- A word before an opening bracket. -/
def callPattern : Pattern := all [group (oneOrMore isWord), many isBlank, text "("]

/-- The problems of the calls that a function makes. -/
def Known.callProblems (c : Site) : List Problem :=
  match c.node.written? with
  | none => []
  | some t =>
    ((callPattern.findFirst t.toList).map String.ofList).filterMap fun name =>
      if builtInFunctions.contains name || k.catalogue.functions.has name then none
      else some ⟨s!"Unknown custom function: \"{name}\"", c.node.line,
        "Custom function call not found"⟩

def Known.functionRows (f : Site) : Except Fault (List Row) :=
  match f.first? "Calculation" with
  | none => .ok []
  | some c =>
    k.rows (plainSpot .function ("Custom Function: " ++ f.node.attrD "name" "Unknown Function")
      (shownBy c)) (k.callProblems c)

def Known.valueListRows (v : Site) : Except Fault (List Row) :=
  k.rows (plainSpot .valueList ("Value List: " ++ v.node.attrD "name" "Unknown Value List") .none)
    ((v.first? "Field").toList.flatMap (k.fieldProblem "Table referenced in value list not found"
      "Field referenced in value list not found"))

def pairPlace (relationship : String) (i : Nat) : String :=
  s!"Relationship: {relationship}, Field {i + 1}"

/-- The rows of a pair of fields in a relationship. -/
def Known.pairRows (name : String) (pair : Site) : Except Fault (List Row) := do
  let rows ← (pair.all "Field").zipIdx.mapM fun (f, i) =>
    k.rows (plainSpot .relationship (pairPlace name i) .none)
      (k.fieldProblem "Table referenced in relationship not found"
        "Field referenced in relationship not found" f)
  return rows.flatten

def Known.relationshipRows (r : Site) : Except Fault (List Row) := do
  return (← (r.all "FieldPair").mapM
    (k.pairRows (r.node.attrD "name" "Unknown Relationship"))).flatten

/-! ## The report -/

/-- The rows of all references, in the order in which they are found. -/
def Known.allRows (root : Site) : Except Fault (List Row) := do
  let scripts ← (root.all "Script").mapM k.scriptRows
  let layouts ← (root.all "Layout").mapM k.layoutRows
  let tables ← (root.all "BaseTable").mapM k.tableRows
  let functions ← (root.all "CustomFunction").mapM k.functionRows
  let valueLists ← (root.all "ValueList").mapM k.valueListRows
  let relationships ← (root.all "Relationship").mapM k.relationshipRows
  return (scripts ++ layouts ++ tables ++ functions ++ valueLists ++ relationships).flatten

/-- Rows by kind, then by owner, then by location, then by standing. -/
def arranged (rows : List Row) : List Row :=
  sortBy (fun r => r.kind.rank)
    (sortBy Row.context (sortBy Row.location (sortBy (fun r => r.status.rank) rows)))

def Row.cells (r : Row) : Sheet.Row :=
  [("Status", .text r.status.text),
   ("Type", .text r.kind.text),
   ("Context", .text r.context),
   ("Location", .text r.location),
   ("Commented", .text (if r.commented then "Yes" else "No")),
   ("Error", .text r.error),
   ("XML Line", .whole r.line),
   ("Details", .text r.details)]

/-- What is given for the audit: the catalogue, and the root if there is one. -/
structure Given where
  catalogue : Catalog.Full
  root : Option Node

/-- The audit of dangling references. It needs the catalogue of the report. -/
def audit (given : Option Given) : Findings :=
  match given with
  | none => { log := ["Warning: Unknown References check requires shared catalogs"] }
  | some g =>
    let rows := match g.root with
      | some n => Known.allRows ⟨g.catalogue⟩ (Site.root n)
      | none => .error (.noRoot "findall")
    match rows with
    | .ok rows => { rows := (arranged rows).map Row.cells }
    | .error fault => { log := ["Error in UnknownCheck: " ++ fault.message] }

end DesignAudit.Dangling
