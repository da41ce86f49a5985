import DesignAudit.Fault
import DesignAudit.Layout.Definition
import DesignAudit.Sheet.Cell
import DesignAudit.Text.Case
import DesignAudit.Text.Listing
import DesignAudit.Text.Order

/-!
# The audit of layouts

Each layout gives a row with the scripts, buttons, triggers and other places that lead to it.
Layouts to which nothing leads come first. The folder of a layout tells whether it is kept for
deletion or for debugging.
-/

namespace DesignAudit.Layout

open Markup Text Sheet

/-- The kind of place that leads to a layout. -/
inductive Source where
  | script
  | button
  | trigger
  | relationship
  | valueList
  | other
  deriving DecidableEq, Repr

structure Use where
  layout : String
  source : Source
  text : String
  deriving DecidableEq, Repr

variable (known : Register String)

/-- The use of a layout of the given name, if there is such a layout. -/
def use (source : Source) (text : String) (name : Option String) :
    List Use :=
  match name.filter fun n => n ≠ "" && known.has n with
  | some n => [⟨n, source, text⟩]
  | none => []

/-- The name of the first layout that an element holds. -/
def target? (s : Site) : Option String := (s.first? "Layout").bind (·.node.attr? "name")

def goSteps (s : Site) : List Site := s.allWith "Step" "name" "Go to Layout"

/-! ## Places that lead to a layout -/

/-- The layouts that a script goes to. -/
def scriptUses (script : Site) : List Use :=
  let name := script.node.attrD "name" "Unknown Script"
  (goSteps script).flatMap (fun step =>
    use known .script name (target? step) ++
    (step.all "Parameter").flatMap fun p => use known .script name (p.node.attr? "layout")) ++
  ["Go to Related Record", "New Window", "Select Window"].flatMap fun kind =>
    (script.allWith "Step" "name" kind).flatMap fun step =>
      use known .script s!"{name} ({kind})" (target? step)

/-- The layouts that the objects of a layout go to. -/
def buttonUses (layout : Site) : List Use :=
  (layout.all "Object").flatMap fun object =>
    let label := (object.node.named? "name").getD (object.node.attrD "type" "Unknown")
    let text := nameOf layout ++ " - " ++ label
    (goSteps object).flatMap (fun step => use known .button text (target? step)) ++
    match (object.first? "SingleStep").bind (·.firstWith? "Step" "name" "Go to Layout") with
    | some step => use known .button text (target? step)
    | none => []

def events : List String :=
  ["OnRecordLoad", "OnRecordCommit", "OnRecordRevert", "OnLayoutEnter", "OnLayoutExit",
   "OnLayoutKeystroke", "OnModeEnter", "OnModeExit", "OnViewChange"]

/-- The layouts that the triggers of a layout go to. -/
def triggerUses (layout : Site) : List Use :=
  events.flatMap fun event =>
    match layout.first? event with
    | some trigger => (goSteps trigger).flatMap fun step =>
        use known .trigger (nameOf layout ++ " - " ++ event) (target? step)
    | none => []

/-- The layouts that the items of menus go to. -/
def menuUses (menuSet : Site) : List Use :=
  let setName := menuSet.node.attrD "name" "Unknown Menu Set"
  (menuSet.all "CustomMenu").flatMap fun menu =>
    let menuName := menu.node.attrD "name" "Unknown Menu"
    (menu.all "CustomMenuItem").flatMap fun item =>
      let itemName := item.node.attrD "name" "Unknown Item"
      (goSteps item).flatMap fun step =>
        use known .other s!"{setName} > {menuName} > {itemName}" (target? step)

/-- All uses of layouts in a document. -/
def uses (root : Site) : List Use :=
  (root.all "Script").flatMap (scriptUses known) ++
  (root.all "Layout").flatMap (buttonUses known) ++
  (root.all "Layout").flatMap (triggerUses known) ++
  (root.all "Relationship").flatMap (fun r =>
    use known .relationship (r.node.attrD "name" "Unknown Relationship") (target? r)) ++
  (root.all "ValueList").flatMap (fun v =>
    use known .valueList (v.node.attrD "name" "Unknown Value List") (target? v)) ++
  (root.all "FileOptions").flatMap (fun o =>
    use known .other "File Options - Default Layout"
      ((o.first? "DefaultLayout").bind (·.node.attr? "name"))) ++
  (root.all "CustomMenuSet").flatMap (menuUses known)

/-! ## Rows -/

/-- The kind of folder that a layout is in. -/
inductive Shelf where
  | deletion
  | debugging
  | ordinary
  deriving DecidableEq, Repr

/-- The kind of a folder, by its path. -/
def shelfOf (path : String) : Shelf :=
  let path := lower path
  if has "delete" path then .deletion
  else if has "debug" path then .debugging
  else .ordinary

/-- How the standing of a layout is shown. -/
def statusText (total : Nat) (shelf : Shelf) : String :=
  if total = 0 then
    match shelf with
    | .deletion => "⚠️ In Delete Folder"
    | .debugging => "⚠️ In Debug Folder"
    | .ordinary => "⚠️ NOT USED"
  else
    match shelf with
    | .deletion => "In Delete Folder"
    | .debugging => "In Debug Folder"
    | .ordinary => "Active"

/-- The rank of the standing of a layout in the report. -/
def statusRank (total : Nat) (shelf : Shelf) : Nat :=
  match shelf with
  | .debugging => 1
  | .deletion => 2
  | .ordinary => if total = 0 then 0 else 3

structure Row where
  name : String
  path : String
  uses : List Use

/-- The number of uses of the layout of a row. -/
def Row.total (r : Row) : Nat := r.uses.length

/-- The descriptions of the uses of one kind. -/
def Row.by (r : Row) (source : Source) : List String :=
  (r.uses.filter (·.source == source)).map (·.text)

def rowsOf (all : List Use) : List Row :=
  known.entries.map fun (name, path) => ⟨name, path, all.filter (·.layout == name)⟩

/-- Rows by standing, then by folder, then by name. -/
def arranged (rows : List Row) : List Row :=
  sortBy (fun r => statusRank r.total (shelfOf r.path))
    (sortBy (lower ·.path) (sortBy (lower ·.name) rows))

def Row.cells (r : Row) : Sheet.Row :=
  [("Layout Name", .text r.name),
   ("Path", .text r.path),
   ("Total Usage", .whole r.total),
   ("Status", .text (statusText r.total (shelfOf r.path))),
   ("Used in Scripts", .text (shortList (r.by .script))),
   ("Used in Buttons", .text (shortList (r.by .button))),
   ("Used in Triggers", .text (shortList (r.by .trigger))),
   ("Used in Other", .text (shortList (r.by .relationship ++ r.by .valueList ++ r.by .other)))]

/-! ## The report -/

/-- Layouts that bear the name of a part of a folder path. -/
def overlapNotes (paths known : Register String) : List String :=
  let parts := (paths.values.filter (· != "Top Level")).flatMap (cutAt " > ")
  let both := sorted (known.names.filter parts.contains)
  if both.isEmpty then []
  else s!"Warning: Found {both.length} names that are both layouts and folders:" ::
    both.map ("  - " ++ ·)

/-- How many layouts there are in each folder. -/
def folderCounts : List String :=
  (ascending known.values).map fun path =>
    s!"  {path}: {(known.values.filter (· == path)).length} layouts"

/-- What the audit reports. -/
def log (root : Site) (known : Register String) : List String :=
  let catalogue := catalogue? root
  let folders := ascending (folderNames catalogue)
  let all := root.all "Layout"
  [s!"Debug: Found {folders.length} folder names: " ++ quotedList folders,
   s!"Debug: Found {all.length} total Layout elements in document"] ++
  ((all.map nameOf).filter folders.contains).map (fun name =>
    s!"Skipping '{name}' - it's a folder name") ++
  [s!"Found {known.size} layouts"] ++
  overlapNotes (folderPaths catalogue) known ++
  ["", "Layouts by path:"] ++ folderCounts known

/-- The audit of the layouts of a document. -/
def audit (raw : String) : Findings :=
  match openDocument "find" raw with
  | .error fault => { log := ["Error in UnusedLayoutsCheck: " ++ fault.message] }
  | .ok root =>
    let known := definitions root
    { log := log root known
      rows := (arranged (rowsOf known (uses known root))).map Row.cells }

end DesignAudit.Layout
