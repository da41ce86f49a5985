import DesignAudit.Run.Check

/-!
# Files, reports and faults of a run

A run reads and writes files and reports lines. It may stop with a fault; what it has done until then
stays done.
-/

namespace DesignAudit.Run

open Catalog Data Text

/-- What a run is asked to do besides its work: to tell more, and to keep what it has read. -/
structure Options where
  debug : Bool := false
  cache : Bool := false
  deriving DecidableEq, Repr

/-- A catalogue that is kept: one that a run has built, or one given as data. -/
inductive Kept where
  | built (c : Full)
  | given (v : Value)

/-- The catalogue that is kept, for use by checks. -/
def Kept.shared : Kept → Shared
  | built c => { catalogue := c }
  | given v => .ofData v

def Kept.isNothing : Kept → Bool
  | built _ => false
  | given v => v.isNothing

/-- What is kept of a report: its normal form and its catalogue. -/
structure Cached where
  text : String
  catalogue : Kept

/-- What stands under a path. -/
inductive Content where
  | bytes (b : List UInt8)
  | folder
  | cached (c : Cached)
  | report (pages : List Book.Page)
  | check (c : CheckFile)

/-- The files below a folder by their paths, and the lines reported so far. -/
structure World where
  home : String
  files : Register Content := .empty
  log : Array String := #[]

/-- Why a run stops. -/
inductive Stop where
  | missingFile (path : String)
  | notAFile (path : String)
  | fault (f : Fault)
  | lacking (p : Part)
  | book (f : Book.Fault)
  | notText (e : Sheet.NotText)
  /-- The run is over, with an exit code. -/
  | leave (code : Nat)

/-- How it is told that a run stops. -/
def Stop.message : Stop → String
  | missingFile path => "[Errno 2] No such file or directory: " ++ quoted path
  | notAFile path => "[Errno 21] Is a directory: " ++ quoted path
  | fault f => f.message
  | lacking p => quoted p.name
  | book f => f.message
  | notText e => e.message
  | leave code => toString code

/-- What a run does: it changes the world, and stops or gives a result. -/
abbrev Action := ExceptT Stop (StateM World)

/-- Reports a text, line by line. -/
def say (s : String) : Action Unit :=
  modify fun w => { w with log := w.log ++ (cutAt "\n" s).toArray }

/-- Reports texts. -/
def tell (xs : List String) : Action Unit := xs.forM say

/-- Goes on with what may have failed. -/
def orStop {ε α : Type} (f : ε → Stop) : Except ε α → Action α
  | .ok a => pure a
  | .error e => throw (f e)

/-! ## Paths -/

def below (folder name : String) : String := folder ++ "/" ++ name

def lastName (path : String) : String := ((cutAt "/" path).getLast?).getD ""

/-- A name without its extension: what follows the last point, unless only points stand before it. -/
def stem (name : String) : String :=
  match (name.toList.reverse.dropWhile (· != '.')).drop 1 with
  | [] => name
  | before => if before.all (· == '.') then name else String.ofList before.reverse

/-! ## Files -/

/-- Whether a path is a folder: one that was made, or one with something in it. -/
def World.isFolder (w : World) (path : String) : Bool :=
  path == w.home ||
  (match w.files.get? path with
  | some .folder => true
  | _ => false) ||
  w.files.names.any (beginsWith (path ++ "/"))

/-- Whether there is something under a path. -/
def World.exists (w : World) (path : String) : Bool := w.files.has path || w.isFolder path

def World.put (w : World) (path : String) (c : Content) : World :=
  { w with files := w.files.insert path c }

def World.remove (w : World) (path : String) : World :=
  { w with files := ⟨w.files.entries.filter fun (p, _) => p != path⟩ }

/-- The paths of all files, without the folder they are in, in ascending order. -/
def World.listing (w : World) : List String :=
  sorted (w.files.entries.filterMap fun (path, c) =>
    match c with
    | .folder => none
    | _ => some (skip (w.home.toList.length + 1) path))

def homePath (name : String) : Action String := return below (← get).home name

def put (path : String) (c : Content) : Action Unit := modify fun w => w.put path c

def bytesAt (path : String) : Action (List UInt8) := do
  let w ← get
  match w.files.get? path with
  | some (.bytes b) => return b
  | some .folder => throw (.notAFile path)
  | some _ => return []
  | none => throw (if w.isFolder path then .notAFile path else .missingFile path)

/-- The path of a folder in the home folder, which is made if it is missing. -/
def homeFolder (name : String) : Action String := do
  let path ← homePath name
  unless (← get).exists path do put path .folder
  return path

end DesignAudit.Run
