import DesignAudit.Run.World

/-!
# The report of a run

The sheets of a run are written into one workbook, in the order of their places. Two sheets with the
same place are told apart by moving the later one ten places on, the next one twenty, and so on. At
last the workbook is opened.
-/

namespace DesignAudit.Run

open Number Text

/-- The sheet of a check: its rows, and how it looks. -/
structure Leaf where
  rows : List Sheet.Row
  format : Book.Format := {}

/-! ## Places -/

/-- The places that are taken by an earlier sheet. -/
def repeated : List Binary → List Binary → List Binary
  | _, [] => []
  | seen, o :: rest =>
    if seen.any (Binary.eq o) then o :: repeated seen rest else repeated (o :: seen) rest

/-- A sheet that is moved, from one place to another. -/
structure Move where
  sheet : String
  old : Binary
  new : Binary

/-- Moves each sheet whose place was seen before; `step` is how far the next one is moved. -/
def movesFrom : List Binary → Nat → List (String × Binary) → List Move
  | _, _, [] => []
  | seen, step, (sheet, o) :: rest =>
    if seen.any (Binary.eq o) then
      ⟨sheet, o, o.add (.ofInt step)⟩ :: movesFrom seen (step + 10) rest
    else movesFrom (o :: seen) step rest

def moves (places : Register Binary) : List Move := movesFrom [] 10 places.entries

/-- The places after sheets with the same place have been told apart. -/
def settled (places : Register Binary) : Register Binary :=
  (moves places).foldl (fun r m => r.insert m.sheet m.new) places

/-- The place of a sheet; one without a place comes last. -/
def placeOf (places : Register Binary) (sheet : String) : Binary :=
  places.getD sheet (.infinite false)

/-- Whether a place and a name come before others, or are the same. -/
def comesFirst (a b : Binary × String) : Bool :=
  if b.1.eq a.1 then !(b.2 < a.2 : Bool) else !b.1.lt a.1

/-- The sheets by place, then by name. -/
def arranged (places : Register Binary) (sheets : Register Leaf) : List (String × Leaf) :=
  sheets.entries.mergeSort fun a b =>
    comesFirst (placeOf places a.1, a.1) (placeOf places b.1, b.1)

/-! ## What a debugging run tells -/

def shownList (bs : List Binary) : String := "[" ++ join ", " (bs.map Binary.shown) ++ "]"

def shownSet (names : List String) : String :=
  "\x7b" ++ join ", " ((ascending names).map quoted) ++ "\x7d"

/-- What is told about sheets that are moved. -/
def movesLog (places : Register Binary) : List String :=
  match repeated [] places.values with
  | [] => []
  | again =>
    let count := again.length
    let again := shownList again
    s!"[DEBUG] Found {count} duplicate sheet order values: {again}" ::
      (moves places).map fun m =>
        let old := m.old.shown
        let new := m.new.shown
        let sheet := m.sheet
        s!"[DEBUG] Adjusted order for '{sheet}' from {old} to {new}"

/-- What is told about the sheets that are written. -/
def writingLog (places : Register Binary) (sheets : List (String × Leaf)) : List String :=
  sheets.zipIdx.map fun ((name, _), i) =>
    let place := (placeOf places name).shown
    s!"[DEBUG]   {i + 1}. '{name}' (order: {place})"

/-- What is told about the sheets that were written. -/
def writtenLog (expected actual : List String) : List String :=
  let missing := expected.filter fun n => !actual.contains n
  let extra := actual.filter fun n => !expected.contains n
  s!"[DEBUG] Expected {expected.length} sheets, found {actual.length} sheets" ::
    ((if missing.isEmpty then [] else ["[DEBUG] Missing sheets: " ++ shownSet missing]) ++
     (if extra.isEmpty then [] else ["[DEBUG] Unexpected sheets: " ++ shownSet extra]))

/-! ## Opening files -/

inductive System where
  | mac
  | windows
  | linux
  | other
  deriving DecidableEq, Repr

def System.ofName : String → System
  | "Darwin" => mac
  | "Windows" => windows
  | "Linux" => linux
  | _ => other

/-- The command that opens a file, or why there is none; some systems have nothing to do. -/
def System.opener : System → Option (Except String String)
  | mac => some (.ok "open")
  | windows => some (.error "module 'os' has no attribute 'startfile'")
  | linux => some (.ok "xdg-open")
  | other => none

/-- Where a run takes place. -/
structure Machine where
  system : System := .linux
  /-- Whether commands fail. -/
  fails : Bool := false

/-- Opens a file. That it cannot be opened is told in a debugging run only. -/
def openFile (o : Options) (m : Machine) (path : String) : Action Unit := do
  if o.debug then say ("[DEBUG] Opening file: " ++ path)
  let failed (reason : String) : Action Unit :=
    if o.debug then say ("[DEBUG] Error opening file: " ++ reason) else pure ()
  match m.system.opener with
  | none => pure ()
  | some (.error reason) => failed reason
  | some (.ok command) =>
    say s!"$ {command} {path}"
    if m.fails then failed "command failed"

/-! ## The workbook -/

def reportPath (base : String) : Action String := do
  return below (← homeFolder "Exports") (lastName base ++ "_full_report.xlsx")

/-- Tells which sheets are written; without places a debugging run has nothing to tell. -/
def tellWriting (o : Options) (places : Option (Register Binary)) (sheets : List (String × Leaf)) :
    Action Bool := do
  unless o.debug do return true
  say s!"[DEBUG] Writing {sheets.length} sheets in order:"
  match places with
  | some p => do
    tell (writingLog p sheets)
    return true
  | none => return sheets.isEmpty

/-- Writes the sheets into a file. What was written before a fault is in the file. -/
def writeReport (path : String) (sheets : List (String × Leaf)) : Action (List Book.Page) := do
  let (pages, fault?) := Book.write (sheets.map fun (name, leaf) => (name, leaf.rows))
  put path (.report pages)
  match fault? with
  | some fault => throw (.book fault)
  | none => return pages

/-- Writes the report of a run, and opens it. -/
def generate (o : Options) (m : Machine) (sheets : Register Leaf) (base : String) (total : Int)
    (places : Option (Register Binary)) : Action Unit := do
  let path ← reportPath base
  if o.debug then tell (movesLog (places.getD .empty))
  let places := places.map settled
  let ordered := arranged (places.getD .empty) sheets
  -- Without places a debugging run stops before any sheet is written.
  let told ← tellWriting o places ordered
  let pages ← writeReport path (if told then ordered else [])
  if o.debug then tell (writtenLog (ordered.map (·.1)) (pages.map Book.Page.title))
  let formatted ← pages.mapM fun p =>
    orStop .notText (p.format ((sheets.get? p.title).map Leaf.format |>.getD {}))
  put path (.report formatted)
  openFile o m path
  say ("Full report saved to: " ++ path)
  say s!"\nRun complete: {total} results found."

end DesignAudit.Run
