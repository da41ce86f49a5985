import DesignAudit.Fault
import DesignAudit.Register
import DesignAudit.Sheet.Cell
import DesignAudit.Text.Blank
import DesignAudit.Text.Order
import DesignAudit.Text.Pattern

/-!
# The audit of custom functions

The calculations of scripts, fields, layout objects, value lists, privilege sets and functions are
searched for the names of custom functions. Functions that nothing uses, or of all functions only
they themselves, come first; the others follow by number of uses.
-/

namespace DesignAudit.Function

open Markup Text Text.Pattern Sheet

/-- One use of a function: the kind of place, and its description. -/
structure Use where
  function : String
  kind : String
  text : String
  deriving DecidableEq, Repr

/-- A calculation with the place it stands in. -/
structure Calculation where
  kind : String
  place : String
  text : String

/-- The description of the place of a calculation. -/
def Calculation.location (c : Calculation) : String := c.kind ++ ": " ++ c.place

/-- The first hundred characters of a definition. -/
def shortened (definition : String) : String :=
  let t := trim definition
  if t.length > 100 then keep 100 t ++ "..." else t

/-- The custom functions by name, with their definitions in short. -/
def functions (root : Site) : Register String :=
  .ofList ((root.allPath "CustomFunctionCatalog" ["CustomFunction"]).map fun f =>
    (f.node.attrD "name" "Unknown Function",
      (((f.first? "Calculation").bind (·.node.written?)).map shortened).getD ""))

/-- The name of a function as a word, or before an opening bracket. -/
def callPattern (name : String) : Pattern :=
  all [wordEdge, word name, alt (all [many isBlank, text "("]) wordEdge]

/-- Whether a text calls or names a function. -/
def mentions (name : String) (text : List Char) : Bool := (callPattern name).occursIn text

/-! ## Calculations -/

/-- The calculation of an element, if it has a text. -/
def calculation (kind place : String) (s : Option Site) : List Calculation :=
  match s.bind (·.node.written?) with
  | some t => [⟨kind, place, t⟩]
  | none => []

def scriptCalculations (root : Site) : List Calculation :=
  (root.all "Script").flatMap fun script =>
    let name := script.node.attrD "name" "Unknown Script"
    (script.all "Calculation").flatMap fun c =>
      let place := match c.parent?.filter (·.tag == "Step") with
        | some step =>
          let index := step.attrD "index" "?"
          let stepName := step.attrD "name" "Unknown Step"
          s!"{name}, Step {index}: {stepName}"
        | none => name
      calculation "Script" place (some c)

def fieldCalculations (root : Site) : List Calculation :=
  (root.all "BaseTable").flatMap fun table =>
    (table.all "Field").flatMap fun field =>
      let place := table.node.attrD "name" "Unknown Table" ++ "::" ++
        field.node.attrD "name" "Unknown Field"
      calculation "Field Calc" place (field.first? "Calculation") ++
      calculation "Auto-Enter" place (field.firstPath? "AutoEnter" ["Calculation"]) ++
      calculation "Validation" place (field.firstPath? "Validation" ["Calculation"])

/-- The mark of a calculation that controls an object. -/
def controlMark (c : Site) : String :=
  match c.parentTag? with
  | some "HideCondition" => " (Hide)"
  | some "ConditionalFormatting" => " (Conditional)"
  | some "Tooltip" => " (Tooltip)"
  | _ => ""

def objectCalculations (root : Site) : List Calculation :=
  (root.all "Layout").flatMap fun layout =>
    (layout.all "Object").flatMap fun object =>
      let label := layout.node.attrD "name" "Unknown Layout" ++ " - " ++
        object.node.attrD "type" "Unknown" ++
        (match object.node.named? "name" with
          | some name => s!" '{name}'"
          | none => "")
      (object.all "Calculation").flatMap fun c =>
        calculation "Layout Object" (label ++ controlMark c) (some c)

def valueListCalculations (root : Site) : List Calculation :=
  (root.all "ValueList").flatMap fun v =>
    calculation "Value List" (v.node.attrD "name" "Unknown Value List") (v.first? "Calculation")

def privilegeCalculations (root : Site) : List Calculation :=
  (root.all "PrivilegeSet").flatMap fun p =>
    (p.all "Calculation").flatMap fun c =>
      calculation "Privilege Set" (p.node.attrD "name" "Unknown Privilege Set") (some c)

/-- The calculations outside of functions, in the order in which they are searched. -/
def calculations (root : Site) : List Calculation :=
  scriptCalculations root ++ fieldCalculations root ++ objectCalculations root ++
  valueListCalculations root ++ privilegeCalculations root

/-! ## Uses -/

def usesIn (names : List String) (c : Calculation) : List Use :=
  let cs := c.text.toList
  (names.filter (mentions · cs)).map (⟨·, c.kind, c.location⟩)

/-- The pairs of a function and a function whose definition calls it. -/
def calls (known : Register String) : List (String × String) :=
  known.entries.flatMap fun (caller, definition) =>
    if definition == "" then []
    else
      let cs := definition.toList
      (known.names.filter (mentions · cs)).map (·, caller)

/-- The use that a call from a function makes. -/
def callUse (call : String × String) : Use :=
  ⟨call.1, "Custom Function", "Custom Function: " ++ call.2⟩

/-- All uses of functions in a document. -/
def uses (known : Register String) (root : Site) : List Use :=
  (calculations root).flatMap (usesIn known.names) ++ (calls known).map callUse

/-- The functions whose definitions call a function. -/
def callers (calls : List (String × String)) (name : String) : List String :=
  distinct ((calls.filter (·.1 == name)).map (·.2))

/-- Whether a function is called by itself and by no other function. -/
def onlyItself (calls : List (String × String)) (name : String) : Bool :=
  callers calls name == [name]

/-! ## Rows -/

structure Row where
  function : String
  count : Nat
  usedIn : String
  active : Bool

/-- The descriptions of one kind of place: all of up to three, or else two and the number of the
rest. -/
def groupText (kind : String) (texts : List String) : List String :=
  if texts.length ≤ 3 then texts
  else texts.take 2 ++ [s!"...and {texts.length - 2} more {kind}(s)"]

/-- The places that use a function, by kind. -/
def placesText (own : List Use) : List String :=
  (ascending (own.map (·.kind))).flatMap fun kind =>
    groupText kind ((own.filter (·.kind == kind)).map (·.text))

def unusedRow (name : String) : Row := ⟨name, 0, "⚠️ NOT USED", false⟩

def activeRow (all : List Use) (calls : List (String × String)) (name : String) : Row :=
  let own := all.filter (·.function == name)
  let others := sorted ((callers calls name).filter (· != name))
  let note := if others.isEmpty then "" else "\nCalled by: " ++ join ", " others
  ⟨name, own.length, trim (lines ((placesText own).take 10) ++ note), true⟩

def rowsOf (known : Register String) (all : List Use) (calls : List (String × String)) :
    List Row :=
  let used := distinct (all.map (·.function))
  let unused := known.names.filter fun n => !used.contains n || onlyItself calls n
  let active := (used.filter fun n => !onlyItself calls n).map (activeRow all calls)
  (sorted unused).map unusedRow ++ sortBy (fun r => -(r.count : Int)) active

def Row.cells (r : Row) : Sheet.Row :=
  [("Custom Function", .text r.function),
   ("Usage Count", .whole r.count),
   ("Used In", .text r.usedIn),
   ("Status", .text (if r.active then "Active" else "Unused"))]

/-- The audit of the custom functions of a document. -/
def audit (raw : String) : Findings :=
  match openDocument "findall" raw with
  | .error fault => { log := ["Error in CustomFunctionUsageCheck: " ++ fault.message] }
  | .ok root =>
    let known := functions root
    { log :=
        [s!"Found {known.size} custom functions", "  Searching in scripts...",
         "  Searching in field calculations...", "  Searching in layout objects...",
         "  Searching in custom functions...", "  Building results..."]
      rows := (rowsOf known (uses known root) (calls known)).map Row.cells }

end DesignAudit.Function
