import DesignAudit.Measure.Trouble
import DesignAudit.Text.Column
import DesignAudit.Text.Order

/-!
# Coverage

How much of the program a run has executed, file by file. The table begins with the files that are
covered least, and of these with the largest; it shows a limited number of files, and of each file a
limited number of lines that were missed.
-/

namespace DesignAudit.Measure

open Data Number Text

structure FileCoverage where
  name : String
  statements : Int
  missed : Int
  percent : Binary
  /-- The numbers of the lines that were missed. -/
  lines : List String

/-- The coverage of all files together, and of each. -/
structure Coverage where
  percent : Binary
  covered : Int
  statements : Int
  failures : Nat
  files : List FileCoverage

/-! ## Paths -/

/-- The folder of the program that is measured. -/
def repository : List String := ["repo"]

/-- The parts of a path without those that lead nowhere or back. -/
def settledParts (parts : List String) : List String :=
  (parts.foldl (fun done part =>
    if part == "" || part == "." then done
    else if part == ".." then done.drop 1
    else part :: done) []).reverse

/-- The parts of a path; one that does not begin at the top begins in the folder of the program. -/
def pathParts (path : String) : List String :=
  let parts := cutAt "/" path
  settledParts (if beginsWith "/" path then parts else repository ++ parts)

/-- The way from one folder to another. -/
def wayTo : List String → List String → List String
  | a :: here, b :: there =>
    if a == b then wayTo here there else (here.map fun _ => "..") ++ ".." :: b :: there
  | here, there => (here.map fun _ => "..") ++ there

/-- A path seen from the folder of the program. -/
def relativePath (path : String) : String :=
  match wayTo repository (pathParts path) with
  | [] => "."
  | parts => join "/" parts

/-! ## Reading -/

def lineNumber : Value → String
  | .whole n => toString n
  | .real b => b.shown
  | .text s => s
  | _ => ""

def FileCoverage.ofData (path : String) (v : Value) : Except Trouble FileCoverage := do
  let summary := orEmpty (← member v "summary")
  return {
    name := relativePath path
    statements := wholeOf (← member summary "num_statements")
    missed := wholeOf (← member summary "missing_lines")
    percent := numberOf (← member summary "percent_covered")
    lines := (itemsOf (← member v "missing_lines")).map lineNumber }

def Coverage.ofData (v : Value) : Except Trouble Coverage := do
  let totals := orEmpty (← member v "totals")
  let about := orEmpty (← member v "meta")
  let files ← membersOf (← member v "files") "items"
  return {
    percent := numberOf (← member totals "percent_covered")
    covered := wholeOf (← member totals "covered_lines")
    statements := wholeOf (← member totals "num_statements")
    failures := countOf (← member about "_pti_bench_errors")
    files := ← files.mapM fun (path, f) => FileCoverage.ofData path f }

/-! ## The table -/

/-- How many files the table shows. -/
def shownFiles : Nat := 120

/-- How many missed lines it shows of a file. -/
def shownLines : Nat := 12

/-- The widest name that it shows in full. -/
def widestName : Nat := 60

/-- Whether a file stands before another one. -/
def FileCoverage.before (a b : FileCoverage) : Bool :=
  a.percent.lt b.percent || (a.percent.eq b.percent && b.statements ≤ a.statements)

def Coverage.shown (c : Coverage) : List FileCoverage :=
  (c.files.mergeSort FileCoverage.before).take shownFiles

/-- The lines that were missed, cut short. -/
def FileCoverage.lineList (f : FileCoverage) : String :=
  join "," (f.lines.take shownLines) ++ (if shownLines < f.lines.length then "…" else "")

def nameWidth (files : List FileCoverage) : Nat :=
  min widestName ((files.map fun f => f.name.length).foldl max "Name".length)

def numberCells (statements missed : Int) (percent : Binary) : String :=
  "  " ++ atRight 5 (toString statements) ++ "  " ++ atRight 4 (toString missed) ++ "  " ++
  atRight 4 (percent.fixed 0) ++ "%"

def FileCoverage.row (width : Nat) (f : FileCoverage) : String :=
  atLeft width (keep widestName f.name) ++ numberCells f.statements f.missed f.percent ++ "  " ++
  f.lineList

def Coverage.table (c : Coverage) : List String :=
  let files := c.shown
  let width := nameWidth files
  let rule := String.ofList (List.replicate (width + 42) '-')
  [atLeft width "Name" ++ "  Stmts  Miss  Cover  Missing", rule] ++ files.map (·.row width) ++
  [rule, atLeft width "TOTAL" ++ numberCells c.statements (c.statements - c.covered) c.percent]

end DesignAudit.Measure
