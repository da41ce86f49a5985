import DesignAudit.Run.Start

/-!
# The command line

Audits the report that is named by the first argument that is no option, tells what happens on the
way, and shows the sheets of the workbook line by line, cells divided by tabs.
-/

namespace DesignAudit

open Run Text

/-- The version that the program states to stand on. -/
def statedVersion : Version := ⟨3, 11, 6⟩

def shownCell : Sheet.Cell → String
  | .text s => replace "\n" " | " s
  | .whole n => toString n
  | .truth b => toString b
  | .decimal digits places =>
    (Number.Binary.ofDecimal (digits < 0) digits.natAbs (-(places : Int))).shown
  | .empty => ""

def shownPage (p : Book.Page) : List String :=
  ("== " ++ p.title) :: p.cells.map fun row => join "\t" (row.map fun c => shownCell c.value)

def shownReports (w : World) : List String :=
  w.files.values.flatMap fun
    | .report pages => pages.flatMap shownPage
    | _ => []

/-- Runs the program on the bytes of a file: what it tells, and its exit code. -/
def runOn (args : List String) (file : String) (bytes : List UInt8) : List String × Nat :=
  let home := "."
  let checks := auditFiles (Options.ofArguments args).debug
  let files := if file == "" then .empty else .ofList [(below home file, .bytes bytes)]
  let (result, world) :=
    (start args statedVersion {} { choice := file } (some checks)).run { home, files }
  let code := match result with
    | .error (.leave code) => code
    | .error _ => 1
    | .ok _ => 0
  (world.log.toList ++ shownReports world, code)

end DesignAudit

open DesignAudit in
/-- Reads the named file and runs the program on it. -/
def main (args : List String) : IO UInt32 := do
  let file := (args.find? fun a => !Text.beginsWith "-" a).getD ""
  let bytes ← if file == "" then pure .empty else IO.FS.readBinFile file
  let (told, code) := runOn args file bytes.toList
  told.forM IO.println
  return code.toUInt32
