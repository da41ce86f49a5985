import DesignAudit.Fault
import DesignAudit.Script.Definition
import DesignAudit.Text.Blank
import DesignAudit.Text.Pattern

/-!
# References to scripts

The uses of a script are kept in eight lists, by the kind of caller. The caller of a reference is
told by the elements around it: a step that performs a script, a button or other object of a layout,
a trigger, a menu, the options of the file, a web viewer or a value list. Each of these is checked
in turn. The first check that finds something makes an entry in its list, and ends the search.
-/

namespace DesignAudit.Script

open Markup Text

inductive Caller where
  | script
  | button
  | trigger
  | menu
  | valueList
  | webViewer
  | other
  | unknown
  deriving DecidableEq, Repr

/-- The callers that count as uses of a script. -/
def knownCallers : List Caller :=
  [.script, .button, .trigger, .menu, .valueList, .webViewer, .other]

/-- The uses of a script, by the kind of caller. -/
structure Usage where
  scripts : List String := []
  buttons : List String := []
  triggers : List String := []
  menus : List String := []
  valueLists : List String := []
  webViewers : List String := []
  others : List String := []
  unknown : List String := []
  deriving DecidableEq, Repr

def Usage.by (u : Usage) : Caller → List String
  | .script => u.scripts
  | .button => u.buttons
  | .trigger => u.triggers
  | .menu => u.menus
  | .valueList => u.valueLists
  | .webViewer => u.webViewers
  | .other => u.others
  | .unknown => u.unknown

/-- Makes an entry in the list of a kind of caller. -/
def Usage.add (u : Usage) (text : String) : Caller → Usage
  | .script => { u with scripts := u.scripts ++ [text] }
  | .button => { u with buttons := u.buttons ++ [text] }
  | .trigger => { u with triggers := u.triggers ++ [text] }
  | .menu => { u with menus := u.menus ++ [text] }
  | .valueList => { u with valueLists := u.valueLists ++ [text] }
  | .webViewer => { u with webViewers := u.webViewers ++ [text] }
  | .other => { u with others := u.others ++ [text] }
  | .unknown => { u with unknown := u.unknown ++ [text] }

/-- The number of uses by callers that count. -/
def Usage.total (u : Usage) : Nat := knownCallers.foldr (fun c n => (u.by c).length + n) 0

/-- Makes an entry for a script. -/
def record (usages : Register Usage) (script : String) (caller : Caller) (text : String) :
    Register Usage :=
  usages.update script {} (·.add text caller)

/-- The names of the twenty nearest elements around a place, outermost first. -/
def pathText (s : Site) : String :=
  join " > " ((s.above.take 20).map Node.tag).reverse

/-- Whether one of the words occurs in a path. -/
def meets (words : List String) (path : String) : Bool := words.any (has · path)

/-- The script whose step performs another script at a place. -/
def callingScript? (i : Index) (s : Site) : Option String :=
  match s.parent? with
  | some step =>
    if step.tag == "Step" &&
        (["1", "164"].contains (step.attr "id") || has "Perform Script" (step.attr "name")) then
      (s.above.take 25).findSome? fun n =>
        if n.tag == "Script" then (n.named? "name").filter i.has else none
    else none
  | none => none

/-- What a button is told to do, from the text of the step beside a place. -/
def buttonText (s : Site) : String :=
  match (s.up?.bind (·.first? "StepText")).bind (·.node.written?) with
  | none => "Button"
  | some t =>
    let t := if has "Perform Script" t then trim (replace "Perform Script" "" t) else t
    if t.length > 30 then "Button (Script: " ++ keep 30 t ++ "...)" else s!"Button (Script: {t})"

def objectText (n : Node) (unknownType : String) : String :=
  let type := n.attrD "type" unknownType
  match n.named? "name" with
  | some name => s!"{type} '{name}'"
  | none => type

/-- The layout and the object around a place, the outermost ones found among the twenty nearest
elements. -/
def layoutObject (s : Site) : Option String × String :=
  (s.above.take 20).foldl (fun (layout, object) n =>
    if n.tag == "Layout" then (some (n.attrD "name" "Unknown Layout"), object)
    else if n.tag == "ButtonObj" then (layout, buttonText s)
    else if n.tag == "Object" then (layout, objectText n "Unknown")
    else if n.tag == "ButtonBarSegment" then (layout, "ButtonBar Segment")
    else (layout, object)) (none, "")

def objectUse? (s : Site) (path : String) : Option String :=
  if meets ["ButtonObj", "ButtonBarSegment", "Object", "Layout"] path then
    let (layout, object) := layoutObject s
    let layout := layout.filter (· ≠ "")
    if layout.isNone && object == "" then none
    else some (layout.getD "Unknown Layout" ++ if object == "" then "" else " - " ++ object)
  else none

/-- The elements that stand for an event by their name. -/
def eventNames : List String :=
  ["OnRecordLoad", "OnRecordCommit", "OnRecordRevert", "OnLayoutEnter", "OnLayoutExit",
   "OnLayoutKeystroke", "OnModeEnter", "OnModeExit", "OnViewChange", "OnObjectEnter",
   "OnObjectExit", "OnObjectModify", "OnObjectKeystroke", "OnObjectSave", "OnObjectValidate",
   "OnPanelSwitch", "OnTabSwitch", "OnFileAVPlayerChange", "OnGestureTap",
   "OnExternalCommandReceived", "OnWindowTransaction", "OnFileWindowOpen", "OnFileWindowClose"]

/-- The base table around a field, looked for among five elements. Where the document ends before
that there is a fault. -/
def tableOfField (above : List Node) : Except Fault String :=
  match (above.take 5).find? (·.tag == "BaseTable") with
  | some t => .ok (t.attrD "name" "Unknown Table")
  | none => if above.length < 4 then .error (.noRoot "getparent") else .ok "Unknown Table"

/-- What is known of a trigger: its event, and the layout, field and object it belongs to. -/
structure Trigger where
  event : String := ""
  layout : String := "Unknown Layout"
  field : String := ""
  object : String := ""

/-- What an element around a trigger tells of it. -/
def Trigger.learn (t : Trigger) (n : Node) (above : List Node) : Except Fault Trigger := do
  let t :=
    if n.tag == "Trigger" then { t with event := (n.attr? "event").getD (n.attrD "name" "Trigger") }
    else if eventNames.contains n.tag then { t with event := n.tag }
    else t
  if n.tag == "Layout" then return { t with layout := n.attrD "name" "Unknown Layout" }
  else if n.tag == "Field" then
    return { t with field := (← tableOfField above) ++ "::" ++ n.attrD "name" "Unknown Field" }
  else if n.tag == "Object" then
    return { t with object := (n.named? "name").getD (n.attrD "type" "Unknown") }
  else return t

/-- What the given number of elements around a trigger tell of it, innermost first. -/
def Trigger.around : Nat → Trigger → List Node → Except Fault Trigger
  | 0, t, _ => .ok t
  | _, t, [] => .ok t
  | k + 1, t, n :: above => do Trigger.around k (← t.learn n above) above

def triggerUse? (s : Site) (path : String) : Except Fault (Option String) := do
  if !meets ["Trigger", "ScriptTriggers", "OnRecordLoad", "OnRecordCommit", "OnLayoutEnter",
      "OnObjectModify", "OnObjectEnter", "OnObjectExit"] path then return none
  let t ← Trigger.around 15 {} s.above
  let context :=
    if t.field != "" then t.layout ++ " - Field: " ++ t.field
    else if t.object != "" then t.layout ++ " - Object: " ++ t.object
    else t.layout
  return if t.event == "" then none else some (context ++ " - " ++ t.event)

def menuUse? (s : Site) (path : String) : Option String :=
  if has "CustomMenu" path then
    let names := (s.above.take 10).filterMap fun n =>
      if n.tag == "CustomMenuItem" then some (n.attrD "name" "Unknown Item")
      else if n.tag == "CustomMenu" then some (n.attrD "name" "Unknown Menu")
      else if n.tag == "CustomMenuSet" then some (n.attrD "name" "Unknown Menu Set")
      else none
    if names.isEmpty then none else some (join " > " names.reverse)
  else none

/-- The use of a script by the options of the file. -/
def fileUse? (path : String) : Option String :=
  if meets ["FileOptions", "WindowTriggers"] path then
    if meets ["OnOpen", "OnFirstWindowOpen"] path then some "File Options - OnFirstWindowOpen"
    else if meets ["OnClose", "OnLastWindowClose"] path then
      some "File Options - OnLastWindowClose"
    else if has "OnWindowOpen" path then some "Window Trigger - OnWindowOpen"
    else if has "OnWindowClose" path then some "Window Trigger - OnWindowClose"
    else none
  else none

def webViewerUse? (s : Site) (path : String) : Option String :=
  if meets ["ExternalObj", "WebViewer"] path then
    let (layout, object) := (s.above.take 10).foldl (fun (layout, object) n =>
      if n.tag == "Layout" then (n.attrD "name" layout, object)
      else if n.tag == "Object" then (layout, n.attrD "name" "Web Viewer")
      else (layout, object)) ("Unknown Layout", "Web Viewer")
    some (layout ++ " - " ++ object)
  else none

def valueListUse? (s : Site) (path : String) : Option String :=
  if has "ValueList" path then
    match (s.above.take 5).find? (·.tag == "ValueList") with
    | some n => some (n.attrD "name" "Unknown Value List")
    | none => some "Unknown Value List"
  else none

/-- How a reference is told of which the use is not known. -/
def unknownText (s : Site) (path : String) : String :=
  let parent := match s.parent? with
    | none => "None"
    | some n =>
      n.tag ++ (match n.attr? "name" with
        | some v => s!" name='{v}'"
        | none => "") ++
      (match n.attr? "type" with
        | some v => s!" type='{v}'"
        | none => "")
  s!"Path: {path} | Parent: {parent} | Element: " ++ s.tag

/-- A check for one kind of caller: what it finds at a place with a given path. -/
structure Check where
  caller : Caller
  find : Site → String → Except Fault (Option String)

/-- The checks that a reference goes through, in order. -/
def checks (i : Index) : List Check :=
  [⟨.script, fun s _ => .ok (callingScript? i s)⟩,
   ⟨.button, fun s path => .ok (objectUse? s path)⟩,
   ⟨.trigger, triggerUse?⟩,
   ⟨.menu, fun s path => .ok (menuUse? s path)⟩,
   ⟨.other, fun _ path => .ok (fileUse? path)⟩,
   ⟨.webViewer, fun s path => .ok (webViewerUse? s path)⟩,
   ⟨.valueList, fun s path => .ok (valueListUse? s path)⟩]

/-- Enters a reference to a script. A check that finds something makes its entry and ends the
search; where none does, the reference is one of unknown use. -/
def enter (s : Site) (script : String) :
    List Check → Register Usage → Except Fault (Register Usage)
  | [], usages => .ok (record usages script .unknown (unknownText s (pathText s)))
  | check :: rest, usages => do
    match ← check.find s (pathText s) with
    | some text => return record usages script check.caller text
    | none => enter s script rest usages

/-- Enters references to scripts one after the other. -/
def enterAll (cs : List Check) (usages : Register Usage) (refs : List (Site × String)) :
    Except Fault (Register Usage) :=
  refs.foldlM (fun usages r => enter r.1 r.2 cs usages) usages

/-- The references that mean a defined script, each with the script's name. -/
def resolved [Marks] (i : Index) (root : Site) : List (Site × String) :=
  (references root).filterMap fun s => (i.resolve? s.node).map (s, ·)

/-- Enters all references of a document, in document order. -/
def referenceUsages [Marks] (i : Index) (root : Site) : Except Fault (Register Usage) :=
  enterAll (checks i) .empty (resolved i root)

/-! ## Calls from a web page -/

/-- The steps that run code in a web viewer. -/
def webSteps (root : Site) : List Site :=
  (root.all "Step").filter fun s =>
    s.node.attr? "id" == some "175" ||
      s.node.attr? "name" == some "Perform JavaScript in Web Viewer"

/-- A quoted script name that is marked as one. -/
def markedNamePattern : Pattern :=
  .all [.text "\"", .group (.oneOrMore (· != '"')), .text "\"", .many isBlank, .text "/*",
    .many isBlank, .text "fmScript"]

/-- The layout and object around a step that runs code in a web viewer. -/
def webContext (s : Site) : String :=
  let (layout, object) := (s.above.take 20).foldl (fun (layout, object) n =>
    if n.tag == "Layout" then (n.attrD "name" "Unknown Layout", object)
    else if n.tag == "ButtonObj" then (layout, "Button")
    else if n.tag == "Object" then (layout, objectText n "")
    else (layout, object)) ("Unknown", "")
  layout ++ if object == "" then "" else " - " ++ object

/-- The calls of defined scripts that a step in a web viewer makes, each with its context. -/
def webCalls (i : Index) (s : Site) : List (String × String) :=
  match (s.first? "StepText").bind (·.node.written?) with
  | none => []
  | some t =>
    (((markedNamePattern.findFirst t.toList).map String.ofList).filter i.has).map
      (·, webContext s)

/-- The uses made by code in web viewers. -/
def webUses (i : Index) (root : Site) : List (String × String) :=
  (webSteps root).flatMap (webCalls i)

/-- Enters the calls made by code in web viewers. -/
def enterWebCalls (usages : Register Usage) (calls : List (String × String)) : Register Usage :=
  calls.foldl (fun r call => record r call.1 .other ("JavaScript in Web Viewer - " ++ call.2)) usages

end DesignAudit.Script
