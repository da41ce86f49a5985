import DesignAudit.Run.Audit

/-!
# The start of a run

Before a report is read, the program makes sure that it can work: the version of its runtime and the
packages it stands on. Then the user chooses a report, or takes the one used last.
-/

namespace DesignAudit.Run

open Text

structure Version where
  major : Int
  minor : Int
  micro : Int
  deriving DecidableEq, Repr

def Version.isRecent (v : Version) : Bool := 3 < v.major || (v.major == 3 && 7 ≤ v.minor)

def checkVersion (v : Version) : Action Bool := do
  if v.isRecent then
    say s!"✓ Python {v.major}.{v.minor}.{v.micro} - Compatible"
  else
    tell [s!"❌ Python {v.major}.{v.minor} detected.", "This script requires Python 3.7 or higher.",
      "Please upgrade your Python installation."]
  return v.isRecent

/-- What the user says to a question, as far as it matters. -/
def meaning (reply : String) : String := trim (lower reply)

def importName (package : String) : String :=
  if package == "pyahocorasick" then "ahocorasick" else package

def install (package : String) (fails : Bool) : Action Unit := do
  say s!"Installing {package}..."
  say s!"$ python -m pip install {package}"
  if fails then
    say "❌ Installation failed: command failed"
    throw (.leave 1)
  say s!"✓ {package} installed successfully!"

/-- Makes sure that a package is there, and installs it if the user agrees. -/
def requirePackage (package : String) (found : Bool) (reply : String) (fails : Bool) :
    Action Unit := do
  if found then say s!"✓ {package} found"
  else
    say s!"❌ {package} not found"
    say s!"Install {package} now? (y/n): "
    if ["y", "yes"].contains (meaning reply) then install package fails
    else
      say s!"❌ Cannot continue without {package}"
      throw (.leave 1)

def packages : List String := ["pandas", "openpyxl", "lxml", "pyahocorasick"]

/-- What the user answers: to the question whether to use the last file again, and which file is
chosen otherwise; no choice is an empty name. -/
structure Answers where
  reply : String := ""
  choice : String

/-- Offers the file used last. -/
def offerLast (o : Options) (a : Answers) : Action (Option String) := do
  match ← lastUsed o with
  | none => return none
  | some path => do
    say ("\nLast used file: " ++ lastName path)
    say "Use this file again? (Y/n): "
    return if ["", "y", "yes"].contains (meaning a.reply) then some path else none

def chooseFile (o : Options) (a : Answers) : Action String := do
  match ← offerLast o a with
  | some path => return path
  | none => do
    if a.choice == "" then
      say "No file selected. Exiting."
      throw (.leave 0)
    let path ← homePath a.choice
    saveLastUsed o path
    return path

/-- The options that command-line arguments ask for. -/
def Options.ofArguments (args : List String) : Options :=
  { debug := args.contains "-debug" || args.contains "--debug"
    cache := args.contains "-cache" || args.contains "--cache" }

/-- Makes sure that the program can work. -/
def checkSystem (v : Version) : Action Unit := do
  say "=== System Check ==="
  unless ← checkVersion v do throw (.leave 1)
  packages.forM fun p => requirePackage p true "" false
  say "✓ Ready to process DDR files\n"

/-- The base name of the report on a file. -/
def baseOf (path : String) : String := stem (lastName path) ++ "_parsed"

/-- The whole program. -/
def start (args : List String) (v : Version) (m : Machine) (a : Answers)
    (checks : Option (List (String × CheckFile))) : Action Unit := do
  let o := Options.ofArguments args
  checkSystem v
  let path ← chooseFile o a
  say ("\nProcessing: " ++ lastName path)
  if o.cache then say "Cache mode: Enabled - will use cached catalogs if available"
  say "Starting enhanced DDR parse..."
  audit o m checks path (baseOf path)

end DesignAudit.Run
