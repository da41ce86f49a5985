import DesignAudit.FieldUse.Calculation
import DesignAudit.Layout.Place

/-!
# Fields on layouts

The objects of a layout use fields directly, in the calculations that control them, and in merge
fields of their texts. A description names the layout and the place of the object.
-/

namespace DesignAudit.FieldUse

open Markup Text Text.Pattern Layout

/-- The use of the field that an element names. -/
def elementUse (s : Scope) (place : Place) (text : String) (n : Node) : List Use :=
  s.use place text (n.attr "table") (n.attr "name")

/-- The uses of fields in the calculation that an element holds. -/
def textUses (s : Scope) (table : Option String) (context : String) (calculation : Option Site) :
    List Use :=
  match calculation.bind (·.node.written?) with
  | some t => calculationUses s table context t
  | none => []

/-- A parameter that names a field after the word `field`. -/
def parameterPattern : Pattern :=
  all [word "field:", group (oneOrMore (· != ':')), text "::",
    group (oneOrMore fun c => c != ';' && c != '"' && !isBlank c)]

/-- The uses of fields that are named as parameters. -/
def parameterUses (s : Scope) (place : Place) (context : String) (parameter : Site) : List Use :=
  match parameter.node.written? with
  | none => []
  | some t =>
    if has "field:" (lower t) then
      match (parameterPattern.search t.toList).map (·.groups) with
      | some (table :: field :: _) =>
        match s.key? (String.ofList table) (String.ofList field) with
        | some key => [⟨key, place, context⟩]
        | none => []
      | _ => []
    else []

/-- The fields of which a text holds the joined name, or the table and the field each with a
dot. -/
def mentionedKeys (s : Scope) (t : String) : List String :=
  s.pairs.filterMap fun (table, field) =>
    if has (fieldKey table field) t || (has (table ++ ".") t && has ("." ++ field) t) then
      some (fieldKey table field)
    else none

/-- The uses of fields that the text of an element mentions. -/
def mentionUses (s : Scope) (place : Place) (context : String) (calculation : Site) : List Use :=
  match calculation.node.written? with
  | some t => (mentionedKeys s t).map (⟨·, place, context⟩)
  | none => []

/-- The chunks of an element that are field references. -/
def fieldChunks (display : Site) : List Site := display.allWith "Chunk" "type" "FieldRef"

def objectsOf (layout : Site) (type : String) : List Site := layout.allWith "Object" "type" type

/-! ## Kinds of objects -/

section Objects

variable (s : Scope) (layout : String) (object : Site)

/-- The placeholder text of a field object. -/
def placeholderObjectUses : Except Fault (List Use) := do
  match object.first? "PlaceholderText" with
  | none => return []
  | some p =>
    let calculated ← match (p.first? "Calculation").bind (·.node.written?) with
      | none => pure []
      | some t => do
        let position ← positionText object
        pure (calculationUses s none s!"PlaceholderText - {layout} {position}" t)
    let shown ← match p.first? "DisplayCalculation" with
      | none => pure []
      | some d => (fieldChunks d).mapM fun chunk => do
        match (chunk.first? "Field").map (elementUse s .layout "" ·.node) with
        | some (u :: _) =>
          let position ← positionText object
          pure [{ u with text := s!"PlaceholderText - {layout} {position}" }]
        | _ => pure []
    return calculated ++ shown.flatten

/-- Field objects. An object whose field has no name or no table is passed over. -/
def fieldObjectUses : Except Fault (List Use) := do
  match object.first? "Field" with
  | none => placeholderObjectUses s layout object
  | some f =>
    if f.node.attr "name" == "" || f.node.attr "table" == "" then return []
    let position ← positionText object
    return elementUse s .layout s!"Field - {layout} {position}" f.node ++
      (← placeholderObjectUses s layout object)

def portalFieldUses (s : Scope) (layout position table : String) (object : Site) :
    Except Fault (List Use) := do
  match object.first? "Field" with
  | none => return []
  | some f =>
    let name := f.node.attr "name"
    let table := f.node.attrD "table" table
    if name == "" || table == "" then return []
    let position ← match object.first? "Bounds" with
      | none => pure position
      | some b => do
        match ← corner? b.node with
        | some c => pure (position ++ " (Field: " ++ cornerText c ++ ")")
        | none => pure position
    return s.use .layout s!"Portal Field - {layout} {position}" table name

/-- Portals: their filter and their fields. -/
def portalUses : Except Fault (List Use) := do
  match object.first? "Portal" with
  | none => return []
  | some portal =>
    let position ← positionText object
    let table := portal.node.attr "table"
    if table == "" then return []
    let filter := (portal.first? "FilterCalc").bind (·.first? "Calculation")
    let filtered := textUses s (some (s.base table)) s!"Portal Filter - {layout} {position}" filter
    let fields ← (objectsOf object "Field").mapM (portalFieldUses s layout position table)
    return filtered ++ fields.flatten

def webViewerUses : Except Fault (List Use) := do
  match (object.first? "ExternalObj").filter (·.node.attr "typeID" == "WEBV") with
  | none => return []
  | some e =>
    let position ← positionText object
    let url := (e.firstPath? "WebObj" ["URLCalc", "Calculation"]).toList
    return (object.all "Calculation").flatMap
        (mentionUses s .webViewer s!"WebViewer - {layout} {position}") ++
      url.flatMap (mentionUses s .webViewer s!"WebViewer URL - {layout} {position}")

/-- Buttons: the parameters of their scripts and their calculations. -/
def buttonUses : Except Fault (List Use) := do
  let position ← positionText object
  let name := object.node.attrD "name" "Unnamed Button"
  let context := s!"Button '{name}' - {layout} {position}"
  let scripts := (object.all "Script").filter (·.node.attr "name" != "")
  return scripts.flatMap (fun script => (script.all "Parameter").flatMap
      (parameterUses s .layout (context ++ " (Script param)"))) ++
    (object.all "Calculation").flatMap (mentionUses s .calculation (context ++ " (Calculation)"))

/-- Text objects: their list of fields and the merge fields in their text. -/
def textObjectUses : Except Fault (List Use) := do
  let position ← positionText object
  let listed := match object.firstPath? "TextObj" ["FieldList"] with
    | some l => l.all "Field"
    | none => []
  let merged := object.allPath "TextObj" ["CharacterStyleVector", "Style", "Data"]
  return listed.flatMap (fun f => elementUse s .layout s!"Text Object - {layout} {position}" f.node)
    ++ merged.flatMap fun d => (mergeNames (d.node.text.getD "").toList).flatMap
      (s.usesAnywhere .layout s!"Text Merge Field - {layout} {position}")

def conditionUses : Except Fault (List Use) := do
  match object.first? "ConditionalFormatting" with
  | none => return []
  | some c =>
    let position ← positionText object
    let type := object.node.attrD "type" "Unknown"
    return (c.all "Item").flatMap fun item =>
      textUses s none s!"Conditional Format - {layout} {type} {position}"
        (item.firstPath? "Condition" ["Calc"])

def hideUses : Except Fault (List Use) := do
  match object.first? "HideCondition" with
  | none => return []
  | some h =>
    let position ← positionText object
    let type := object.node.attrD "type" "Unknown"
    return textUses s none s!"Hide Condition - {layout} {type} {position}" (h.first? "Calculation")

/-- The labels of the panels of a layout, told with the place of a control. -/
def panelUses (s : Scope) (site : Site) (layout type part unnamed label : String)
    (control : Site) : Except Fault (List Use) := do
  let position ← positionText control
  return (objectsOf site type).flatMap fun panel =>
    let name := panel.node.attrD "name" unnamed
    textUses s none s!"{label} - {layout} {name} {position}"
      ((panel.first? part).bind (·.first? "Calculation"))

def barUses : Except Fault (List Use) := do
  let position ← positionText object
  let segments := match object.first? "ButtonBarObj" with
    | some b => b.all "Segment"
    | none => []
  return segments.flatMap fun segment =>
    textUses s none s!"Button Bar Label - {layout} {position}" (segment.first? "Calculation")

def popoverUses : Except Fault (List Use) := do
  let position ← positionText object
  let name := object.node.attrD "name" "Unnamed Popover"
  return textUses s none s!"Popover Title - {layout} {name} {position}"
    ((object.first? "PopoverObj").bind (·.first? "Calculation"))

/-- Charts: their series and their calculations. -/
def chartUses : Except Fault (List Use) := do
  match object.firstWith? "ExternalObj" "typeID" "CHRT" with
  | none => return []
  | some chart =>
    let position ← positionText object
    let name := object.node.attrD "name" "Unnamed Chart"
    return (chart.allBelow "ChartSeries" "Field").flatMap (fun f =>
        elementUse s .layout s!"Chart Series - {layout} {name} {position}" f.node) ++
      (chart.all "Calculation").flatMap fun c =>
        textUses s none s!"Chart Calculation - {layout} {name} {position}" (some c)

end Objects

def layoutName (layout : Site) : String := layout.node.attrD "name" "Unknown Layout"

/-- Objects of a layout that are searched together, and the uses that each of them makes. -/
abbrev ObjectKind := List Site × (Site → Except Fault (List Use))

/-- All uses that the objects of a kind make. -/
def ObjectKind.collect (kind : ObjectKind) : Except Fault (List Use) :=
  return (← kind.1.mapM kind.2).flatten

/-- The objects that show fields and portals. -/
def fieldKinds (s : Scope) (layout : Site) : List ObjectKind :=
  let name := layoutName layout
  [(objectsOf layout "Field", fieldObjectUses s name),
   (objectsOf layout "Portal", portalUses s name)]

/-- The web viewers and buttons. -/
def controlKinds (s : Scope) (layout : Site) : List ObjectKind :=
  let name := layoutName layout
  [(objectsOf layout "ExternalObject", webViewerUses s name),
   (objectsOf layout "Button", buttonUses s name)]

/-- The further kinds of objects, and what all objects may have. -/
def furtherKinds (s : Scope) (layout : Site) : List ObjectKind :=
  let name := layoutName layout
  let objects := layout.all "Object"
  [(objectsOf layout "Text", textObjectUses s name),
   (objects, conditionUses s name),
   (objects, hideUses s name),
   (objectsOf layout "TabControl",
     panelUses s layout name "TabPanel" "TabControlObj" "Unnamed Tab" "Tab Label"),
   (objectsOf layout "SlideControl",
     panelUses s layout name "SlidePanel" "SlideControlObj" "Unnamed Slide" "Slide Label"),
   (objectsOf layout "ButtonBar", barUses s name),
   (objectsOf layout "Popover", popoverUses s name),
   (objects, chartUses s name)]

/-- The objects of a layout by kind, in the order in which they are searched. -/
def objectKinds (s : Scope) (layout : Site) : List ObjectKind :=
  fieldKinds s layout ++ controlKinds s layout ++ furtherKinds s layout

def layoutUses (s : Scope) (layout : Site) : Except Fault (List Use) :=
  return (← (objectKinds s layout).mapM ObjectKind.collect).flatten

/-- The uses of fields on all layouts of a document. -/
def usesOnLayouts (s : Scope) (root : Site) : Except Fault (List Use) := do
  return (← (root.all "Layout").mapM (layoutUses s)).flatten

end DesignAudit.FieldUse
