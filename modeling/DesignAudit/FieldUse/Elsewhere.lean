import DesignAudit.FieldUse.OnLayout
import DesignAudit.Query.Statement

/-!
# Fields in scripts, calculations, queries and lists

Besides layouts, fields are used by the steps of scripts, by the calculations of other fields and of
custom functions, by queries, by relationships, by value lists and by merge fields.
-/

namespace DesignAudit.FieldUse

open Markup Text Text.Pattern
open Query (queries blanks gap)

/-! ## Scripts -/

/-- The uses of fields in a step of a script. -/
def stepUses (s : Scope) (script : String) (step : Site) : List Use :=
  let name := step.node.attrD "name" "Unknown Step"
  let index := step.node.attr "index"
  let context := s!"Script - {script} (Step {index}: {name})"
  (step.all "Parameter").flatMap (parameterUses s .script (context ++ " (Param)")) ++
  (step.all "Calculation").flatMap (fun c => textUses s none context (some c)) ++
  (if name == "Set Field" || name == "Set Field By Name" then
    match step.first? "Field" with
    | some f => elementUse s .script (context ++ " (Target field)") f.node
    | none => []
  else []) ++
  (if name == "Import Records" || name == "Export Records" then
    (step.allPath "FieldMapping" ["Field"]).flatMap fun f =>
      elementUse s .script (context ++ " (Field Mapping)") f.node
  else [])

def usesInScripts (s : Scope) (root : Site) : List Use :=
  (root.all "Script").flatMap fun script =>
    (script.all "Step").flatMap (stepUses s (script.node.attrD "name" "Unknown Script"))

/-! ## Calculations of fields and functions -/

/-- The uses that a calculation of a field makes: of the field itself, and of those it names. -/
def ownCalculationUses (s : Scope) (label table field : String) (calculation : Option Site) :
    List Use :=
  match calculation.bind (·.node.written?) with
  | none => []
  | some t =>
    let context := label ++ " - " ++ fieldKey table field
    ⟨fieldKey table field, .calculation, context ++ " (Target)"⟩ ::
      calculationUses s (some table) context t

/-- The uses that the shown form of a calculation makes. -/
def displayUses (s : Scope) (table field : String) (display : Option Site) : List Use :=
  match display with
  | none => []
  | some d =>
    let context := "Field Display Calculation - " ++ fieldKey table field
    ⟨fieldKey table field, .calculation, context ++ " (Target)"⟩ ::
      (fieldChunks d).flatMap fun chunk =>
        match (chunk.childrenNamed "Field").head? with
        | some f => elementUse s .calculation context f.node
        | none => []

/-- The uses that the calculations of a field make. -/
def fieldUses (s : Scope) (table : String) (f : Site) : List Use :=
  match (f.node.named? "name").filter (s.hasField table ·) with
  | none => []
  | some field =>
    ownCalculationUses s "Field Calculation" table field (f.first? "Calculation") ++
    displayUses s table field (f.first? "DisplayCalculation") ++
    ownCalculationUses s "Auto-Enter Calculation" table field
      (f.firstPath? "AutoEnter" ["Calculation"]) ++
    ownCalculationUses s "Validation Calculation" table field
      (f.firstPath? "Validation" ["Calculation"])

/-- The uses that the calculations of all fields make. -/
def usesInFields (s : Scope) (root : Site) : List Use :=
  (root.all "BaseTable").flatMap fun t =>
    match t.node.named? "name" with
    | some table => (t.all "Field").flatMap (fieldUses s table)
    | none => []

/-- The uses that custom functions make. -/
def usesInFunctions (s : Scope) (root : Site) : List Use :=
  (root.allPath "CustomFunctionCatalog" ["CustomFunction"]).flatMap fun f =>
    textUses s none ("Custom Function - " ++ f.node.attrD "name" "Unknown Function")
      (f.first? "Calculation")

/-! ## Queries -/

/-- A field name that is compared with something after a keyword. -/
def comparedName (keyword name : String) : Pattern :=
  all [word keyword, gap, word name, blanks, one fun c => "=<>!".toList.contains c]

/-- The places of a query at which a field name is looked for, each with its label. -/
def namePlaces (name : String) : List (String × Pattern) :=
  [("WHERE", comparedName "WHERE" name),
   ("AND", comparedName "AND" name),
   ("OR", comparedName "OR" name),
   ("SELECT", all [word "SELECT", gap, word name, blanks,
      alt (text ",") (all [gap, word "FROM"])]),
   ("ORDER BY", all [word "ORDER", gap, word "BY", gap, word name]),
   ("GROUP BY", all [word "GROUP", gap, word "BY", gap, word name])]

/-- The uses of the fields of a table that a query reads from. -/
def tableQueryUses (s : Scope) (context : String) (query : List Char) (table : String) :
    List Use :=
  let base := s.base table
  (s.fieldsOf base).flatMap fun field =>
    (if hasPart (table ++ "." ++ field).toList query then
      [⟨fieldKey base field, .query, "SQL - " ++ context⟩]
    else []) ++
    (namePlaces field).filterMap fun (label, pattern) =>
      if pattern.occursIn query then
        some ⟨fieldKey base field, .query, s!"SQL ({label}) - {context}"⟩
      else none

/-- The uses of fields in the queries of a calculation. -/
def queryUses (s : Scope) (context : String) (calculation : List Char) : List Use :=
  (queries calculation).flatMap fun query =>
    ((Query.mainPattern.findFirst query).map String.ofList).flatMap
      (tableQueryUses s context query)

/-- The first element of a name among the five nearest. -/
def nearest? (above : List Node) (tag : String) : Option Node :=
  (above.take 5).find? (·.tag == tag)

/-- Where a calculation with a query stands, by the nearest of the elements around it that tells. -/
def queryContext : Nat → List Node → String
  | 0, _ => "Unknown"
  | _, [] => "Unknown"
  | k + 1, n :: above =>
    if n.tag == "Script" then "Script " ++ n.attrD "name" "Unknown Script"
    else if n.tag == "Step" then
      match nearest? above "Script" with
      | some script =>
        let name := script.attrD "name" "Unknown Script"
        let index := n.attr "index"
        let step := n.attrD "name" "Unknown Step"
        s!"Script {name} (Step {index}: {step})"
      | none => "Unknown"
    else if n.tag == "CustomFunction" then
      "Custom Function " ++ n.attrD "name" "Unknown Function"
    else if n.tag == "Field" then
      match nearest? above "BaseTable" with
      | some table =>
        "Field Calculation " ++ table.attrD "name" "Unknown Table" ++ "::" ++
          n.attrD "name" "Unknown Field"
      | none => "Unknown"
    else if n.tag == "Object" then
      match nearest? above "Layout" with
      | some layout =>
        let name := layout.attrD "name" "Unknown Layout"
        let type := n.attrD "type" "Unknown Object"
        s!"Layout Object - {name} ({type})"
      | none => "Unknown"
    else queryContext k above

def usesInQueries (s : Scope) (root : Site) : List Use :=
  (root.all "Calculation").flatMap fun c =>
    match c.node.text.filter (has "ExecuteSQL") with
    | some t => queryUses s (queryContext 10 c.above) t.toList
    | none => []

/-! ## Relationships, value lists and merge fields -/

/-- Whether an element is the `i`-th child of its name, counted from zero. -/
def isChildAt (i : Nat) (s : Site) : Bool :=
  match s.up? with
  | some p => ((p.childrenNamed s.tag)[i]?).map (·.address) == some s.address
  | none => false

def usesInRelationships (s : Scope) (root : Site) : List Use :=
  (root.all "Relationship").flatMap fun r =>
    let context := "Relationship - " ++ r.node.attrD "name" "Unknown Relationship"
    (r.all "FieldPair").flatMap fun pair =>
      [0, 1].flatMap fun i =>
        match (pair.all "Field").find? (isChildAt i) with
        | some f => elementUse s .relationship context f.node
        | none => []

def usesInValueLists (s : Scope) (root : Site) : List Use :=
  (root.all "ValueList").flatMap fun v =>
    let name := v.node.attrD "name" "Unknown Value List"
    let used (label : String) (f : Option Site) : List Use :=
      match f with
      | some f => elementUse s .valueList (label ++ " - " ++ name) f.node
      | none => []
    used "Value List" (v.first? "Field") ++
    (v.all "RelatedSet").flatMap fun related =>
      used "Value List (Primary)" (related.first? "PrimaryField") ++
      used "Value List (Display)" (related.first? "DisplayField")

/-- Where a merge field stands, by the nearest object around it. -/
def mergeContext : Nat → List Node → String
  | 0, _ => "Text Object"
  | _, [] => "Text Object"
  | k + 1, n :: above =>
    if n.tag == "Object" then
      match nearest? above "Layout" with
      | some layout =>
        let name := layout.attrD "name" "Unknown Layout"
        let type := n.attrD "type" "Unknown"
        s!"Text Merge Field - {name} ({type})"
      | none => "Text Object"
    else mergeContext k above

/-- The uses of fields by merge marks in texts. -/
def usesInTexts (s : Scope) (root : Site) : List Use :=
  (root.allPath "CharacterStyleVector" ["Style", "Data"]).flatMap fun d =>
    (mergeNames (d.node.text.getD "").toList).flatMap
      (s.usesAnywhere .layout (mergeContext 10 d.above))

end DesignAudit.FieldUse
