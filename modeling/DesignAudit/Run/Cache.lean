import DesignAudit.Encoding.Fingerprint
import DesignAudit.Run.World

/-!
# The cache

A run may keep what it has read of a report, under a name made from the report's file name and the
fingerprint of its bytes, so that a report that has changed is read anew. It may also remember which
file was used last.
-/

namespace DesignAudit.Run

open Encoding Text

def cacheFolder : Action String := homeFolder "Cache"

/-- The name under which a report with the given bytes is kept. -/
def cacheNameOf (path : String) (bytes : List UInt8) : String :=
  stem (lastName path) ++ "_" ++ fingerprint bytes ++ ".cache"

/-- The name under which a report is kept. -/
def cacheName (path : String) : Action String := return cacheNameOf path (← bytesAt path)

/-- The path under which a report is kept. -/
def cachePath (path : String) : Action String := do
  let folder ← cacheFolder
  return below folder (← cacheName path)

def Kept.canBeSaved : Kept → Bool
  | built _ => true
  | given v => v.isRecord

/-- A catalogue without what is not kept of it. -/
def Kept.trimmed : Kept → Kept
  | built c => built c
  | given v => given (.record (v.members.filter fun (name, _) => name != "raw_xml" && name != "root"))

/-- Keeps what was read of a report. -/
def saveToCache (o : Options) (path text : String) (catalogue : Kept) : Action Unit := do
  unless o.cache do return
  let file ← cachePath path
  if (← get).isFolder file || !catalogue.canBeSaved then
    say "Warning: Could not save cache"
  else
    put file (.cached ⟨text, catalogue.trimmed⟩)
    say ("✓ Saved normalized XML and catalogs to cache: " ++ lastName file)

/-- What is kept of a report. What cannot be read is removed. -/
def loadFromCache (o : Options) (path : String) : Action (Option Cached) := do
  unless o.cache do return none
  let file ← cachePath path
  let w ← get
  unless w.exists file do return none
  match w.files.get? file with
  | some (.cached c) =>
    say ("✓ Loaded data from cache: " ++ lastName file)
    return some c
  | _ =>
    say "Warning: Could not load cache"
    unless w.isFolder file do modify fun w => w.remove file
    return none

/-- The file that remembers which file was used last. -/
def lastUsedPath : Action String := return below (← cacheFolder) ".last_used_file"

/-- The file used last, if it is still there. -/
def lastUsed (o : Options) : Action (Option String) := do
  unless o.cache do return none
  let file ← lastUsedPath
  let w ← get
  match w.files.get? file with
  | some (.bytes b) =>
    let path := trim (String.ofList (decode b))
    return if w.exists path then some path else none
  | _ => return none

/-- Remembers the file used last. -/
def saveLastUsed (o : Options) (path : String) : Action Unit := do
  unless o.cache do return
  put (← lastUsedPath) (.bytes (toUtf8 path.toList))

end DesignAudit.Run
