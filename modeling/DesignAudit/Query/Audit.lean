import DesignAudit.Layout.Place
import DesignAudit.Query.Verdict
import DesignAudit.Sheet.Cell

/-!
# The audit of queries

Every calculation that runs a query gives a row: where it stands, which tables and fields it names,
and the verdict on them. Calculations of layout objects are read once for each object. Rows with
missing tables come first, then those with missing fields, then those that use occurrences.
-/

namespace DesignAudit.Query

open Markup Text Layout Sheet

/-! ## What a calculation says -/

/-- A calculation that runs a query, with all that is read from it. -/
structure Reading where
  sql : String
  tables : List String
  extraction : Extraction
  fields : List String
  verdict : Verdict
  commented : Bool

def Schema.reading [SetOrder] (s : Schema) (sql : String) : Reading :=
  let cs := sql.toList
  let tables := tablesIn cs
  let extraction := extract cs
  let fields := SetOrder.list (extraction.fields.map FieldRef.text)
  { sql, tables, extraction, fields
    verdict := s.judge tables fields
    commented := isCommented cs }

/-! ## Where it stands -/

/-- The place of a calculation as a row reports it. -/
structure Place where
  category : String
  details : String
  other : String
  debug : String
  path : String
  fieldName : String
  fieldHere : String
  line : Nat

/-- A row of the report. Where an object could not be read there is no reading, only its place. -/
structure Row where
  place : Place
  reading : Option Reading

/-- The attributes of a node as they are shown. -/
def attributesText (n : Node) : String :=
  match n.kind with
  | .element =>
    "\x7b" ++ join ", " (n.attributes.map fun (k, v) => quoted k ++ ": " ++ quoted v) ++ "\x7d"
  | _ => "<lxml.etree._ImmutableMapping object>"

/-- The attribute of a node, or a default. A remark cannot be asked. -/
def askAttribute (n : Node) (key default : String) : Except Fault String :=
  match n.kind with
  | .element => .ok (n.attrD key default)
  | _ => .error .remarkAttribute

/-- The names of the elements from the root down to a node. The root is not named. -/
def pathText (s : Site) : String :=
  join " > " ("Root" :: ((s.outward.map Site.tag).dropLast).reverse)

/-- The names and numbers in force at a node. -/
structure Context where
  layout : Option String := none
  script : Option String := none
  step : Option String := none
  stepNumber : Option Int := none
  steps : List Site := []

/-- The number of a step: the one it gives, or else its position among the steps of the script. -/
def stepNumber? (c : Context) (s : Site) : Option Int :=
  match (s.node.attr? "index").bind Number.whole? with
  | some n => some n
  | none =>
    match c.steps.findIdx? (·.address == s.address) with
    | some i => some (i + 1)
    | none => c.stepNumber

/-- What a node changes for itself and all below it. -/
def Context.enter (c : Context) (s : Site) : Context :=
  if s.tag == "Layout" then { c with layout := (s.node.attr? "name").or c.layout }
  else if s.tag == "Script" then
    { c with script := (s.node.attr? "name").or c.script, steps := s.all "Step" }
  else if s.tag == "Step" then
    { c with step := (s.node.attr? "name").or c.step, stepNumber := stepNumber? c s }
  else c

/-- The context at a node, from the elements around it, outermost first. -/
def Context.at (s : Site) : Context := s.outward.reverse.foldl Context.enter {}

/-- The nearest field with a name among a node and those around it, up to a number of levels. -/
def nearestField? (levels : Nat) (s : Site) : Option Site :=
  (s.outward.take levels).find? fun t => t.tag == "Field" && (t.node.attr? "name").isSome

/-- The name of the nearest base table among a node and those around it, up to a number of
levels. -/
def nearestTable (levels : Nat) (s : Site) : String :=
  match (s.outward.take levels).find? fun t =>
    t.tag == "BaseTable" && (t.node.attr? "name").isSome with
  | some t => t.node.attr "name"
  | none => ""

/-- The field that a calculation belongs to, with its table, when it stands in a field. -/
def fieldHere (s : Site) (path : String) : Except Fault String := do
  if !has "> Field >" path then return ""
  let own ← askAttribute s.node "name" ""
  let (field, table) :=
    if own != "" then (own, "")
    else
      match nearestField? 15 s with
      | some f => (f.node.attr "name", f.node.attr "table")
      | none => ("", "")
  let base := nearestTable 16 s
  let table := if base != "" then base else table
  return (
    if table != "" && field != "" then table ++ "::" ++ field
    else if field != "" then field
    else if table != "" then table ++ "::?"
    else "")

/-- The kind of place that a calculation stands in, and what is told of it. -/
structure Kind where
  category : String
  details : String
  other : String

/-- The step of a script as it is told. -/
def stepText (c : Context) : String :=
  match c.stepNumber with
  | some n => s!"Step {n}: " ++ c.step.getD ""
  | none => if c.step.getD "" == "" then "Script Step" else c.step.getD ""

/-- The kind of place that a node is. -/
def kindAt (c : Context) (s : Site) (path : String) : Except Fault Kind := do
  let parentName (default : String) := (s.parent?.bind (·.attr? "name")).getD default
  match c.script.filter (· ≠ "") with
  | some script => return ⟨"Script", script, stepText c⟩
  | none =>
    if has "BaseTableCatalog" path && has "FieldCatalog" path && has "Calculation" path then
      let base := nearestTable 10 s
      let table ← if base != "" then pure base else askAttribute s.node "table" "Unknown Table"
      return ⟨"Field Calculation", table ++ "::" ++ parentName "Unknown Field",
        "Field Calculation"⟩
    else if has "Field" path && has "Calculation" path then
      let table ← askAttribute s.node "table" "Unknown Table"
      return ⟨"Field Calculation", table ++ "::" ++ parentName "Unknown Field",
        "Layout: " ++ c.layout.getD "None" ++ " Field Calculation"⟩
    else if has "CustomFunctionCatalog" path then
      return ⟨"Custom Function", parentName "Unknown Function", "Custom Function"⟩
    else return ⟨"Other", "Uncategorized", "Unknown"⟩

/-- The note on a node that is kept for tracing. -/
def traceText (s : Site) (path : String) : String :=
  s!"XML_LINE: {s.node.line} | XML_PATH: {path} | Node: " ++ s.tag ++ ", Attributes: " ++
    attributesText s.node

/-- The place of a calculation by the kind of place that it is; `here` is the field it belongs to, and
`field` the nearest one around it. A kind that could not be told is an error. -/
def placeOf (s : Site) (path here : String) (field : Option Site) :
    Except Fault Kind → Except Fault Place
  | .error fault =>
    let line := s.node.line
    return { category := "Error", details := "Error Parsing Details", other := "Unknown"
             debug := s!"XML_LINE: {line} | XML_PATH: {path} | Error: " ++ fault.message
             path, fieldName := "", fieldHere := here, line }
  | .ok kind => do
    let line := s.node.line
    let found := (field.map (·.node.attr "name")).filter (· ≠ "Unknown Field")
    if kind.category == "Field Calculation" then
      let details ← match found with
        | some name => do
          let table ← askAttribute s.node "table" "Unknown Table"
          pure (table ++ "::" ++ name)
        | none => pure kind.details
      return { category := "Field Calc", details := if here != "" then here else details
               other := "", debug := traceText s path, path
               fieldName := found.getD "", fieldHere := here, line }
    else
      return { category := kind.category, details := kind.details
               other := if kind.category == "Custom Function" then "" else kind.other
               debug := traceText s path, path, fieldName := "", fieldHere := here, line }

/-- The place of a calculation that is not part of a layout object. -/
def placeAt (s : Site) : Except Fault Place := do
  let path := pathText s
  let here ← fieldHere s path
  let field := nearestField? 10 s
  -- The bounds of the field are looked at although they are not told: infinite ones are a fault.
  match field.bind (·.first? "Bounds") with
  | some b => let _ ← corner? b.node
  | none => pure ()
  placeOf s path here field (kindAt (Context.at s) s path)

/-! ## Rows -/

/-- Whether the text of a node is read as a calculation with a query. -/
def isRead (s : Site) (path sql : String) : Bool :=
  !(s.tag == "Calculation" && (has "> Object >" path || has "> ExternalObject >" path)) &&
  hasQuery sql.toList &&
  !(s.tag == "StepText" || s.tag == "DisplayCalculation" ||
    (sql.length < 50 && !beginsWith "ExecuteSQL" sql) ||
    beginsWith "PatternCount" sql || beginsWith "If [" sql)

/-- The text of a node if it mentions a query. -/
def queryText? (n : Node) : Option String := n.text.filter (has "ExecuteSQL")

/-- The row of a node whose text is a calculation with a query. -/
def textRow? [SetOrder] (schema : Schema) (s : Site) : Except Fault (Option Row) :=
  match queryText? s.node with
  | none => .ok none
  | some t =>
    let sql := trim t
    if isRead s (pathText s) sql then return some ⟨← placeAt s, some (schema.reading sql)⟩
    else .ok none

/-- What kind of object a layout object is. -/
def objectType (s : Site) : String :=
  let type := s.node.attrD "type" "Unknown Type"
  if type == "ExternalObject" then
    match (s.childrenNamed "ExternalObj").head? with
    | some e =>
      let id := e.node.attr "typeID"
      if id == "WEBV" then "WebViewer" else s!"External ({id})"
    | none => type
  else type

def objectName (s : Site) : String :=
  match s.node.named? "name" with
  | some name => name
  | none =>
    match (s.down ["Styles", "CustomStyles", "Name"]).head? with
    | some n => n.node.text.getD "None"
    | none => "Unnamed Object"

/-- The first calculations of an object, by the places where they are looked for, each with the use
that it has there. -/
def objectCalculations (s : Site) (type : String) : List (Option Site × String) :=
  let use := if type == "WebViewer" then "WebViewer" else "Calculation"
  [((s.down ["HideCondition", "Calculation"]).head?, "Hide"),
   ((s.down ["ConditionalFormatting", "Calculation"]).head?, "Conditional"),
   (s.first? "Calculation", use),
   ((s.down ["ExternalObj", "Calculation"]).head?, use)]

/-- The calculation of an object that runs a query: its node, its text and its use. -/
def objectQuery? (s : Site) (type : String) : Option (Site × String × String) :=
  (objectCalculations s type).findSome? fun (calculation, use) =>
    calculation.bind fun c => (queryText? c.node).map fun t => (c, trim t, use)

/-- The row of a layout object that runs a query. -/
def objectRow? [SetOrder] (schema : Schema) (s : Site) : Option Row :=
  let layout := (Context.at s).layout.getD "None"
  let line := s.node.line
  match placeText ((s.childrenNamed "Bounds").head?.map (·.node)) with
  | .error fault =>
    some ⟨{ category := "Error", details := "Error Parsing Object", other := "Layout: " ++ layout
            debug := s!"XML_LINE: {line} | XML_PATH: Layout_Object_Error | Error: " ++ fault.message
            path := "Layout_Object_Error", fieldName := "", fieldHere := "", line }, none⟩
  | .ok position =>
    let type := objectType s
    (objectQuery? s type).map fun (c, sql, use) =>
      ⟨{ category := "Layout Object", details := type ++ " (Name: " ++ objectName s ++ ")"
         other := s!"Layout: {layout}, {position}, {use}", debug := traceText s "Layout_Object"
         path := "Layout_Object", fieldName := "", fieldHere := "", line := c.node.line },
       some (schema.reading sql)⟩

/-- The rows that a node gives: that of its own text, and that of an object. -/
def rowsAt [SetOrder] (schema : Schema) (s : Site) : Except Fault (List Row) := do
  let own ← textRow? schema s
  let object :=
    if s.tag == "Object" || s.tag == "ExternalObject" then objectRow? schema s else none
  return own.toList ++ object.toList

def rowsInOrder [SetOrder] (schema : Schema) (root : Site) : Except Fault (List Row) := do
  return (← (root :: root.below).mapM (rowsAt schema)).flatten

def Row.status (r : Row) : String :=
  match r.reading with
  | some x => x.verdict.status
  | none => ""

/-! ## Columns -/

/-- The names of a list, or the word for none. -/
def listOrNone (xs : List String) : String := if xs.isEmpty then "None" else lines xs

/-- The sign before a table that is named by an occurrence. -/
def warningSign : String := "⚠️ "

def yesIfNone (xs : List String) : String := if xs.isEmpty then "Yes" else "No"

def Row.cells (schema : Schema) (r : Row) : Sheet.Row :=
  let read (f : Reading → String) (default : String) : Cell :=
    .text ((r.reading.map f).getD default)
  let p := r.place
  [("Error Status", .text r.status),
   ("Category", .text p.category),
   ("Details", .text p.details),
   ("Other Info", .text p.other),
   ("SQL Text", read (·.sql) ""),
   ("Tables", read (fun x => lines (x.tables.map fun t =>
      if schema.isOccurrence t then warningSign ++ t else t)) ""),
   ("Base Tables", read (fun x => lines (x.tables.map schema.base)) ""),
   ("Fields", read (fun x => lines x.fields) ""),
   ("Raw Field Matches", read (fun x => lines x.extraction.notes) ""),
   ("Commented?", read (fun x => if x.commented then "commented out" else "") ""),
   ("Missing Tables", read (fun x => listOrNone x.verdict.missingTables) "None"),
   ("Missing Fields", read (fun x => listOrNone x.verdict.missingFields) "None"),
   ("Table Exists", read (fun x => yesIfNone x.verdict.missingTables) "Unknown"),
   ("Fields Exist", read (fun x => yesIfNone x.verdict.missingFields) "Unknown"),
   ("Debug Info", .text p.debug),
   ("XML Path", .text p.path),
   ("Field Name", .text p.fieldName),
   ("Field from XML", .text p.fieldHere),
   ("XML Line", .whole p.line),
   ("Errors", read (fun x => join "; " x.verdict.reasons) ""),
   ("Base Table Name (Debug)", read (fun x => lines (x.tables.map fun t =>
      t ++ " → " ++ schema.occurrences.getD t "N/A")) ""),
   ("BaseTable Match Tables (Debug)", read (fun x => lines (x.tables.map fun t =>
      t ++ ": " ++ if schema.isOccurrence t then "No" else "Yes")) "")]

def textAt (column : String) (row : Sheet.Row) : String :=
  match row.lookup column with
  | some (.text t) => t
  | _ => ""

/-- How grave a status is: the graver, the smaller. -/
def gravity (status : String) : Nat :=
  if status == "Missing Table" then 0
  else if status == "Missing Field" then 1
  else if status == "Not Base Table" then 2
  else 3

/-- The first table of a row in small letters. -/
def firstTable (row : Sheet.Row) : String :=
  lower (trim (replace warningSign "" ((cutAt "\n" (textAt "Tables" row)).headD "")))

/-- Rows by gravity, and by table among rows of one gravity. -/
def arranged (rows : List Sheet.Row) : List Sheet.Row :=
  sortBy (fun r => gravity (textAt "Error Status" r)) (sortBy firstTable rows)

/-- Blanks out the word for none in the columns of missing names. -/
def blankNone (r : Sheet.Row) : Sheet.Row :=
  r.map fun (column, cell) =>
    if (column == "Missing Tables" || column == "Missing Fields") && cell == .text "None" then
      (column, .text "")
    else (column, cell)

/-- The rows of a document. A doubled question mark is read as a star. -/
def rowsOf [SetOrder] (raw : String) : Except Fault (List Sheet.Row) := do
  let root ← openDocument "findall" (replace "??" "*" raw)
  let schema := Schema.ofRoot root
  return arranged ((← rowsInOrder schema root).map (Row.cells schema))

/-- What the search for queries finds in a document. -/
def search [SetOrder] (raw : String) : Findings :=
  match rowsOf raw with
  | .ok rows => { rows }
  | .error fault => { log := ["Error in process_sql_calls: " ++ fault.message] }

/-- The audit of the queries of a document. -/
def audit [SetOrder] (raw : String) : Findings :=
  let found := search raw
  { found with rows := found.rows.map blankNone }

end DesignAudit.Query
