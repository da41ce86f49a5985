import DesignAudit.Catalog.Basic
import DesignAudit.Fault
import DesignAudit.Number.Reading
import DesignAudit.Text.Pattern

/-!
# Where table occurrences are used

Scripts and layouts are gone through in order, and each use of a table occurrence is noted under its
name. A name counts as used in a calculation when it occurs in the text.

Where a calculation runs queries, the tables that the queries read are noted first and are not noted
again for the same calculation. A calculation without queries is compared with the tables of the
last one that had some; when there was none yet, a name that occurs in it is a fault. The patterns
for queries are set up by a script step or by a condition that hides an object, and another
calculation with a query before that is a fault too.
-/

namespace DesignAudit.Occurrence

open Markup Text Text.Pattern Number

/-- What has been noted so far. -/
structure Tally where
  /-- The notes on each name. -/
  notes : Register (List String) := .empty
  /-- The tables read by the last calculation with queries. -/
  found : Option (List String) := none
  /-- Whether the patterns for queries are set up. -/
  ready : Bool := false

def Tally.on (t : Tally) (name : String) : List String := t.notes.getD name []

def Tally.note (t : Tally) (name text : String) : Tally :=
  { t with notes := t.notes.update name [] (· ++ [text]) }

/-- Adds a note on a name unless the same note is there. -/
def Tally.noteNew (t : Tally) (name text : String) : Tally :=
  if (t.on name).contains text then t else t.note name text

/-- Adds a note on each of several names. -/
def Tally.noteAll (t : Tally) (names : List String) (text : String) : Tally :=
  names.foldl (fun t name => t.note name text) t

def Tally.noteGiven (t : Tally) (name : Option String) (text : String) : Tally :=
  match name.filter (· ≠ "") with
  | some name => t.note name text
  | none => t

/-! ## Tables of queries -/

/-- A table after a keyword, bare or in quotes. -/
def tableAfter (keyword : String) : List Pattern :=
  let start := [word keyword, oneOrMore isBlank]
  [all (start ++ [group (oneOrMore fun c => !isBlank c && c != ',' && c != ';')]),
   all (start ++ [text "\"", group (oneOrMore (· != '"')), text "\""]),
   all (start ++ [text "'", group (oneOrMore (· != '\'')), text "'"])]

def tablePatterns : List Pattern := tableAfter "FROM" ++ tableAfter "JOIN"

/-- The name of a table without quotes around it and without what follows it. Nothing but blanks
between quotes is a fault. -/
def tableName (matched : List Char) : Except Fault (Option String) :=
  let name := trimOf '\'' (trimOf '"' (trim (String.ofList matched)))
  if name == "" then .ok none
  else
    match firstWord? name with
    | some w => .ok (some w)
    | none => .error .noSuchMember

variable (known : List String)

/-- The known names among the tables that the queries of a calculation read. -/
def queryTables (calculation : String) : Except Fault (List String) := do
  let matched := tablePatterns.flatMap (·.findFirst calculation.toList)
  let names ← matched.mapM tableName
  return distinct ((names.filterMap id).filter known.contains)

def runsQuery (calculation : String) : Bool := has "ExecuteSQL" calculation

/-- Notes the tables that the queries of a calculation read. -/
def Tally.noteQuery (calculation text : String) (t : Tally) :
    Except Fault Tally := do
  if !t.ready then .error .patternsUnknown
  else
    let tables ← queryTables known calculation
    return { t with found := some tables }.noteAll tables text

def occurring (t : String) : List String := known.filter (has · t)

/-- Notes the known names that occur in a calculation, those apart that the last queries read. -/
def Tally.noteOccurring (calculation text : String) (t : Tally) :
    Except Fault Tally :=
  match occurring known calculation, t.found with
  | [], _ => .ok t
  | _ :: _, none => .error .tablesUnknown
  | names, some found => .ok (t.noteAll (names.filter fun n => !found.contains n) text)

/-- Notes the tables of a calculation that controls an object. -/
def Tally.noteCalculation (text : String) (t : Tally) (calculation : String) :
    Except Fault Tally := do
  let t ← if runsQuery calculation then t.noteQuery known calculation (text ++ " (ExecuteSQL)")
    else pure t
  t.noteOccurring known calculation text

/-! ## Scripts -/

/-- The steps whose calculations are searched for queries. -/
def queryStepNames : List String := ["Execute SQL", "Set Variable", "If", "Exit Loop If"]

/-- Notes the queries in the calculations of a step. -/
def Tally.noteStepQueries (text : String) (step : Site) (t : Tally) :
    Except Fault Tally :=
  (step.all "Calculation").foldlM (fun t c =>
    match c.node.text.filter runsQuery with
    | some q => { t with ready := true }.noteQuery known q text
    | none => pure t) t

/-- The first hundred characters of a text. -/
def snippet (s : String) : String :=
  if s.length > 100 then keep 100 s ++ "..." else s

def stepName (step : Site) : String := step.node.attrD "name" "Unknown Step"

/-- What is written in the first calculation of a step. -/
def stepText? (step : Site) : Option String :=
  (step.first? "Calculation").bind (·.node.written?)

/-- Notes the table that a step sets a field of, or those of its queries. -/
def Tally.noteAction (label : String) (step : Site) (t : Tally) :
    Except Fault Tally :=
  let name := stepName step
  if name == "Set Field" then
    pure (t.noteGiven ((step.first? "Field").bind (·.node.attr? "table")) (label ++ "Set Field"))
  else if name == "Set Field By Name" then
    pure (t.noteAll (((stepText? step).map (occurring known)).getD [])
      (label ++ "Set Field By Name"))
  else if queryStepNames.contains name then
    t.noteStepQueries known (label ++ name ++ " (ExecuteSQL)") step
  else pure t

/-- Notes the names in the text of a query step that are not noted yet, or the table of a layout that
a step goes to. -/
def Tally.noteTarget (label : String) (step : Site) (t : Tally) : Tally :=
  let name := stepName step
  if name == "Execute SQL" then
    match stepText? step with
    | some q => (occurring known q).foldl (fun t n =>
        if (t.on n).contains (label ++ name ++ " (ExecuteSQL)") then t
        else t.note n (label ++ "Execute SQL - " ++ snippet q)) t
    | none => t
  else if name == "Go to Layout" then
    match step.first? "Layout" with
    | some l => t.noteGiven (l.node.attr? "table")
        (label ++ "Go to Layout '" ++ l.node.attrD "name" "Unknown" ++ "'")
    | none => t
  else t

def Tally.noteFields (text : String) (step : Site) (t : Tally) : Tally :=
  (step.all "Field").foldl (fun t f =>
    match f.node.named? "table" with
    | some table => t.noteNew table text
    | none => t) t

/-- What is noted of a step begins with its place. -/
def stepLabel (script : String) (step : Site) : String :=
  let id := step.node.attr "id"
  s!"Script '{script}' Step {id}: "

def Tally.noteStep (script : String) (t : Tally) (step : Site) :
    Except Fault Tally := do
  let label := stepLabel script step
  let t ← t.noteAction known label step
  return (t.noteTarget known label step).noteFields (label ++ stepName step) step

def Tally.noteScript (t : Tally) (script : Site) : Except Fault Tally :=
  (script.all "Step").foldlM
    (Tally.noteStep known (script.node.attrD "name" "Unknown Script")) t

/-! ## Layouts -/

/-- A distance without its fraction. -/
def wholeDistance (s : String) : Except Fault Int :=
  match real? s with
  | none => .error (.notReal s)
  | some .undefined => .error .undefinedCoordinate
  | some (.infinite _) => .error .infiniteCoordinate
  | some (.finite negative m e) => .ok (Binary.truncate negative m e)

/-- The place of an object, if it has bounds. -/
def placeOf? (object : Site) : Except Fault (Option String) :=
  match object.first? "Bounds" with
  | none => .ok none
  | some b => do
    let top ← wholeDistance (b.node.attrD "top" "0")
    let left ← wholeDistance (b.node.attrD "left" "0")
    return some s!"Top {top} Left {left}"

def Tally.noteField (layout : String) (t : Tally) (object : Site) : Except Fault Tally := do
  match (object.first? "Field").bind (·.node.named? "table") with
  | none => return t
  | some table =>
    match ← placeOf? object with
    | some place => return t.note table s!"Field Layout '{layout}' Object FieldObj {place}"
    | none => return t

def Tally.notePortalTable (layout : String) (t : Tally) (portal : Site) : Except Fault Tally := do
  match (portal.first? "TableAliasKey").bind (·.node.written?) with
  | none => return t
  | some table =>
    match ← placeOf? portal with
    | some place => return t.note table s!"Portal Layout '{layout}' Object Portal {place}"
    | none => return t

def Tally.notePortalFilter (layout : String) (t : Tally) (portal : Site) :
    Except Fault Tally := do
  match (portal.first? "Calculation").bind (·.node.written?) with
  | none => return t
  | some q =>
    match occurring known q with
    | [] => return t
    | names =>
      match ← placeOf? portal with
      | some place =>
        return t.noteAll names s!"Portal Filter Layout '{layout}' Object Portal {place}"
      | none => return t

/-- Notes the table of a portal and those in its filter. -/
def Tally.notePortal (layout : String) (t : Tally) (portal : Site) :
    Except Fault Tally := do
  (← t.notePortalTable layout portal).notePortalFilter known layout portal

/-- The elements whose calculations are looked at by themselves. -/
def controlNames : List String :=
  ["HideCondition", "Tooltip", "ConditionalFormatting", "PlaceholderText"]

/-- Notes the tables of a calculation of an object that controls nothing. -/
def Tally.noteOther (suffix : String) (t : Tally) (calculation : Site) :
    Except Fault Tally := do
  let context := calculation.parentTag?.getD "Calculation"
  if controlNames.contains context then return t
  match calculation.node.written? with
  | none => return t
  | some q =>
    let text := context ++ suffix
    let t ← if runsQuery q then t.noteQuery known q (text ++ " (ExecuteSQL)") else pure t
    return (occurring known q).foldl (fun t n => t.noteNew n text) t

/-- What is noted of a calculation of an object ends with its place. -/
def objectSuffix (layout : String) (object : Site) : String :=
  let type := object.node.attrD "type" "Unknown"
  s!" on Layout '{layout}' - {type}"

def Tally.noteObject (layout : String) (t : Tally) (object : Site) :
    Except Fault Tally := do
  let suffix := objectSuffix layout object
  let t ← match (object.firstPath? "HideCondition" ["Calculation"]).bind (·.node.written?) with
    | some q => do
      let t := if runsQuery q then { t with ready := true } else t
      t.noteCalculation known ("Hide Condition" ++ suffix) q
    | none => pure t
  let t ← match (object.firstPath? "Tooltip" ["Calculation"]).bind (·.node.written?) with
    | some q => t.noteCalculation known ("Tooltip" ++ suffix) q
    | none => pure t
  let formats := (object.allPath "ConditionalFormatting" ["Calculation"]).filterMap
    (·.node.written?)
  let t ← formats.foldlM (Tally.noteCalculation known ("Conditional Format" ++ suffix)) t
  let t := match (object.firstPath? "PlaceholderText" ["Calculation"]).bind (·.node.written?) with
    | some q => t.noteAll (occurring known q) ("Placeholder Text" ++ suffix)
    | none => t
  (object.all "Calculation").foldlM (Tally.noteOther known suffix) t

def Tally.noteLayout (t : Tally) (layout : Site) : Except Fault Tally := do
  let name := layout.node.attrD "name" "Unknown Layout"
  let table := layout.node.attr "table"
  let t := t.noteGiven (some table) s!"Layout '{name}' (Based on Table Occurrence)"
  let t := t.noteGiven (((layout.first? "Table").bind (·.node.attr? "name")).filter (· ≠ table))
    s!"Layout '{name}' (Table Reference)"
  let t ← (layout.all "FieldObj").foldlM (Tally.noteField name) t
  let t ← (layout.all "PortalObj").foldlM (Tally.notePortal known name) t
  (layout.all "Object").foldlM (Tally.noteObject known name) t

/-- The notes on all scripts and layouts of a document. -/
def Tally.of (root : Site) : Except Fault Tally := do
  let t ← (root.all "Script").foldlM (Tally.noteScript known) {}
  (root.all "Layout").foldlM (Tally.noteLayout known) t

end DesignAudit.Occurrence
