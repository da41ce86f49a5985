import DesignAudit.Number.Grouped
import DesignAudit.Script.Occurrence
import DesignAudit.Script.Reference
import DesignAudit.Sheet.Cell
import DesignAudit.Text.Listing
import DesignAudit.Text.Order

/-!
# The audit of scripts

Each script gives a row with its uses. Scripts without any use come first. The name and the folder
of a script tell whether it is a server script, a script for debugging or development, or scheduled
for deletion.
-/

namespace DesignAudit.Script

open Markup Text Sheet Number

/-- The standing of a script. -/
inductive Status where
  | unused
  | checkManually
  | server
  | debug
  | playground
  | deletion
  | active
  deriving DecidableEq, Repr

def Status.text : Status → String
  | unused => "⚠️ NOT USED"
  | checkManually => "Check Manually"
  | server => "Server"
  | debug => "Debug"
  | playground => "Dev Playground"
  | deletion => "Scheduled For Deletion"
  | active => "Active"

def Status.rank : Status → Nat
  | unused => 0
  | checkManually => 1
  | server => 2
  | debug => 3
  | playground => 4
  | deletion => 5
  | active => 6

/-- Whether a name tells that the script runs on the server. -/
def isServerName (name : String) : Bool :=
  has "server" name || has "runonserver" (replace "_" "" (replace " " "" name))

/-- The standing that the name and the folder of a script give it. -/
def special? (name folder : String) : Option Status :=
  let name := lower name
  let folder := lower folder
  if has "todelete" folder then some .deletion
  else if isServerName name then some .server
  else if has "debug" name then some .debug
  else if has "dev playground" name || has "dev playground" folder then some .playground
  else none

/-- The standing of a script by name, folder, number of uses and number of occurrences. -/
def statusOf (name folder : String) (uses count : Nat) : Status :=
  match special? name folder with
  | some s => s
  | none =>
    if uses = 0 then if count ≤ 2 then .unused else .checkManually
    else .active

/-- The first three notes on references of unknown use, and how many more there are. -/
def unknownNotes (xs : List String) : String :=
  lines (xs.take 3 ++ if xs.length > 3 then [s!"...and {xs.length - 3} more unknown refs"] else [])

structure Row where
  name : String
  folder : String
  total : Nat
  count : Nat
  /-- The lines with occurrences, when they are traced. -/
  trace : Option (List String)
  scripts : List String
  buttons : List String
  triggers : List String
  menus : List String
  others : List String
  unknown : List String

/-- The standing of the script of a row. -/
def Row.status (r : Row) : Status := statusOf r.name r.folder r.total r.count

def rowOf (i : Index) (usages : Register Usage) (tallies : Register Tally) (tracing : Bool)
    (name : String) : Row :=
  let usage := usages.getD name {}
  let tally := tallies.getD name {}
  { name
    folder := i.folders.getD name ""
    total := usage.total
    count := tally.count
    trace := if tracing then some tally.lines else none
    scripts := usage.scripts
    buttons := usage.buttons
    triggers := usage.triggers
    menus := usage.menus
    others := usage.valueLists ++ usage.webViewers ++ usage.others
    unknown := usage.unknown }

/-- Rows by standing, then by number of uses, the most used first, then by name. -/
def arranged (rows : List Row) : List Row :=
  sortBy (fun r => r.status.rank) (sortBy (fun r => -(r.total : Int)) (sortBy (lower ·.name) rows))

def Row.cells (r : Row) : Sheet.Row :=
  [("Script Name", .text r.name), ("Total Usage", .whole r.total), ("Status", .text r.status.text),
   ("XML Count", .whole r.count)] ++
  (match r.trace with
    | some ls => [("XML Occurrences (Debug)", .text (lines (ls.take 10)))]
    | none => []) ++
  [("Called from Scripts", .text (shortList r.scripts)),
   ("Called from Buttons", .text (shortList r.buttons)),
   ("Called from Triggers", .text (shortList r.triggers)),
   ("Called from Menus", .text (shortList r.menus)),
   ("Called from Other", .text (shortList r.others)),
   ("Debug Info", .text (unknownNotes r.unknown))]

/-- The note on each thousand of occurrences. -/
def progressNotes (found : Nat) : List String :=
  (List.range (found / 1000)).map fun i =>
    "      Found " ++ grouped ((i + 1) * 1000) ++ " matches so far..."

/-- What an audit reports that ends with a fault. -/
def failed (log : List String) (fault : Fault) : Findings :=
  { log := log ++ ["Error in UnusedScriptsCheck: " ++ fault.message] }

/-- The audit of the scripts of a document. -/
def audit [Marks] (debug : Bool) (raw : String) : Findings :=
  match openDocument "findall" raw with
  | .error fault => failed [] fault
  | .ok root =>
    let i := Index.of root
    let text := raw.toList
    let opening :=
      [s!"Found {i.names.length} scripts", "  Counting script occurrences...",
       "    Building search patterns...", s!"    Added {i.names.length} script patterns",
       "    Searching XML (" ++ grouped text.length ++ " characters)..."]
    if i.names.isEmpty then failed opening .noScriptNames
    else
      let found := occurrences i.names text
      let tallies := tallied (if debug then some (.of text) else none) i.names found
      let elements := (root.all "Script").length
      let counted := opening ++ progressNotes found.length ++
        ["    Search complete! Found " ++ grouped found.length ++ " total matches",
         "  Processing script references...",
         s!"  Found {elements} total Script elements"]
      match referenceUsages i root with
      | .error fault => failed counted fault
      | .ok usages =>
        let calls := webUses i root
        let rows := i.names.map (rowOf i (enterWebCalls usages calls) tallies debug)
        let serverNotes := if debug then
            (rows.filter fun r => special? r.name r.folder == some .server &&
              has "server" (lower r.name)).map
              fun r => s!"[DEBUG] '{r.name}' detected as Server script"
          else []
        let callNotes := if debug then
            calls.map fun (name, context) =>
              s!"[DEBUG] Found JavaScript call to '{name}' in {context}"
          else []
        { log := counted ++
            [s!"  Processed {(resolved i root).length} script references",
             s!"  Found {(webSteps root).length} JavaScript in Web Viewer steps"] ++
            callNotes ++ serverNotes
          rows := (arranged rows).map Row.cells }

end DesignAudit.Script
