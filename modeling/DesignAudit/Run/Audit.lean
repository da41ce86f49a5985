import DesignAudit.Run.Cache
import DesignAudit.Run.Report

/-!
# A run over a report

A run reads a report, or takes what was kept of it, sums up its catalogue, carries out the checks in
the order of their places, and writes what they find. A check that fails does not stop the others;
any other fault ends the run with a line that tells it.
-/

namespace DesignAudit.Run

open Catalog Number Text

/-! ## The report -/

/-- Reads a file and brings it into normal form. -/
def readReport (o : Options) (path : String) : Action (String × Option Markup.Node) := do
  let bytes ← bytesAt path
  tell (readingLog o.debug bytes)
  let text := normalText bytes
  return (text, ← orStop .fault (tree text))

def buildCatalogue (root : Option Markup.Node) : Action Full := do
  tell (if root.isSome then buildLog else rootlessLog)
  orStop .fault (catalogueOf root)

/-- Reads a report anew, and keeps what was read. -/
def readAnew (o : Options) (path : String) : Action Material := do
  say "\nProcessing DDR XML..."
  let (text, root) ← readReport o path
  say "\nBuilding DDR catalogs..."
  let catalogue ← buildCatalogue root
  saveToCache o path text (.built catalogue)
  return { text, root, catalogue := { catalogue } }

/-- Takes what was kept of a report. -/
def readKept (c : Cached) : Action Material := do
  say "\nUsing cached normalized XML and catalogs..."
  return { text := c.text, root := ← orStop .fault (tree c.text), catalogue := c.catalogue.shared }

/-- Whether what was kept of a report is of use. -/
def Cached.isUseful (c : Cached) : Bool := c.text != "" && !c.catalogue.isNothing

/-- What a run works with. -/
def prepare (o : Options) (path : String) : Action Material := do
  match (← loadFromCache o path).filter Cached.isUseful with
  | some c => readKept c
  | none => readAnew o path

/-- Tells the size of one part of the catalogue. -/
def tellPart (c : Shared) (p : Part) (line : String) : Action Unit := do
  if c.lacking.contains p then throw (.lacking p)
  say line

def summarise (c : Shared) : Action Unit := do
  let k := c.catalogue
  let fields := ((k.tables.values).map fun t => t.fields.size).foldr (· + ·) 0
  tellPart c .scripts s!"\n✓ Found {k.scripts.size} scripts"
  tellPart c .layouts s!"✓ Found {k.layouts.size} layouts"
  tellPart c .tables s!"✓ Found {k.tables.size} tables"
  tellPart c .occurrences s!"✓ Found {k.occurrences.size} table occurrences"
  tellPart c .functions s!"✓ Found {k.functions.size} custom functions"
  tellPart c .valueLists s!"✓ Found {k.valueLists.size} value lists"
  tellPart c .relationships s!"✓ Found {k.relationships.size} relationships"
  say s!"✓ Found {fields} fields across all tables"

/-! ## Checks -/

/-- A check that is ready to run. -/
structure Ready where
  name : String
  place : Binary
  check : Check
  run : Material → Except String Sheet.Findings

/-- Whether a file may hold a check. -/
def isCheckFile (name : String) : Bool := endsWith checkExtension name && !beginsWith "__" name

def loadCheck (name : String) (file : CheckFile) : Action (Option Check) := do
  match file with
  | .ok c => return some c
  | .error reason => do
    say s!"Error loading check module {name}: {reason}"
    return none

def checkIn (w : World) (path : String) : CheckFile :=
  if !endsWith checkExtension path then .error "'NoneType' object has no attribute 'loader'"
  else
    match w.files.get? path with
    | some (.check c) => c
    | some .folder => .error (Stop.notAFile path).message
    | some _ => .ok { run? := none }
    | none => .error (Stop.missingFile path).message

/-- The checks that are supplied with a run, if there is a folder for them. -/
def suppliedChecks : Action (Option (List (String × CheckFile))) := do
  let folder ← homePath "Checks"
  let w ← get
  unless w.exists folder do return none
  return some (w.files.names.filterMap fun path =>
    if path == below folder (lastName path) then some (lastName path, checkIn w path) else none)

/-- Loads the checks of a folder, in the order of their files. -/
def loadChecks (files : List (String × CheckFile)) : Action (List Ready) := do
  let files := sortBy (·.1) (files.filter fun (name, _) => isCheckFile name)
  let loaded ← files.mapM fun (file, content) => do
    let name := skipLast checkExtension.toList.length file
    match ← loadCheck name content with
    | none => return none
    | some check =>
      match check.run? with
      | none => return none
      | some run => return some ⟨name, ← orStop .fault check.rank.value, check, run⟩
  return loaded.filterMap id

/-- Checks by place, then by name. -/
def inOrder (checks : List Ready) : List Ready :=
  checks.mergeSort fun a b => comesFirst (a.place, a.name) (b.place, b.name)

/-- The title of a sheet, made from the name of the check. -/
def titleFrom (name : String) : String := trim (replace "Check" "" (replace "_" " " name))

/-- What the checks have found: the sheets, their places, and the number of findings. -/
structure Results where
  sheets : Register Leaf := .empty
  places : Register Binary := .empty
  total : Nat := 0

def runCheck (m : Material) (r : Results) (c : Ready) : Action Results := do
  let name := c.name
  say s!"Running {name}..."
  let failed (reason : String) : Action Results := do
    say s!"Error running {name}: {reason}"
    return r
  match c.run m with
  | .error reason => failed reason
  | .ok found => do
    tell found.log
    if found.rows.isEmpty then
      say s!"  {name} returned no results"
      return r
    else
      match c.check.title?.getD (.ok (titleFrom name)) with
      | .error reason => failed reason
      | .ok title => do
        let count := found.rows.length
        say s!"✓ {name} completed with {count} results"
        return { sheets := r.sheets.insert title ⟨found.rows, c.check.format⟩
                 places := r.places.insert title c.place
                 total := r.total + count }

def tellDone (o : Options) (total : Nat) : Action Unit :=
  if o.debug then
    tell ["\n[DEBUG] Skipping terminal clear due to debug mode",
      "=== FileMaker DDR Analysis Complete (Debug Mode) ===",
      s!"Total issues found: {total}", "Debug mode: All output preserved above", ""]
  else
    tell (["=== FileMaker DDR Analysis Complete ===", s!"Total issues found: {total}"] ++
      (if o.cache then ["Cache mode: Enabled"] else []) ++ [""])

/-- Carries out all checks, and writes what they find. -/
def runChecks (o : Options) (machine : Machine) (m : Material) (files : List (String × CheckFile))
    (base : String) : Action Unit := do
  say "\nRunning checks..."
  let checks := inOrder (← loadChecks files)
  let r ← checks.foldlM (runCheck m) {}
  tellDone o r.total
  if r.sheets.size == 0 then say "\nNo results found from any checks."
  else generate o machine r.sheets base r.total (some r.places)

/-- Reads a report and carries out the checks; the folder of the checks may be missing. -/
def auditReport (o : Options) (machine : Machine) (checks : Option (List (String × CheckFile)))
    (path base : String) : Action Unit := do
  let m ← prepare o path
  summarise m.catalogue
  match checks with
  | some files => runChecks o machine m files base
  | none => do
    say ("\nChecks folder not found at: " ++ (← homePath "Checks"))
    say "Please create a 'Checks' folder and add check modules."

/-- Tells why a run over a report stopped. Only the end of the whole run goes through. -/
def tellStop (path : String) : Stop → Action Unit
  | .leave code => throw (.leave code)
  | .fault (.unreadable reason) => say ("Error parsing XML: " ++ reason.message)
  | .missingFile _ => say ("File not found: " ++ path)
  | stop => say ("An unexpected error occurred: " ++ stop.message)

/-- A run over a report. -/
def audit (o : Options) (machine : Machine) (checks : Option (List (String × CheckFile)))
    (path base : String) : Action Unit :=
  tryCatch (auditReport o machine checks path base) (tellStop path)

end DesignAudit.Run
