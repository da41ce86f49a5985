import DesignAudit.Fault
import DesignAudit.Register
import DesignAudit.Text.Blank
import DesignAudit.Text.Case
import DesignAudit.Text.Search

/-!
# The standing of a dangling reference

A reference that leads nowhere matters less when it lies in a folder kept for deletion, when its
place or its wording speaks of temporary or debugging work, or when it is commented out. The folder
is looked up by the name of the script or layout as it is read from the location.
-/

namespace DesignAudit.Dangling

open Markup Text

/-- The standing of a reference. -/
inductive Status where
  | active
  | toDelete
  | commentedOut
  | temporary
  deriving DecidableEq, Repr

/-- How a standing is shown. -/
def Status.text : Status → String
  | active => "Active Error"
  | toDelete => "To Delete"
  | commentedOut => "Commented Out"
  | temporary => "Temp/Debug"

/-- The rank of a standing in the report. -/
def Status.rank : Status → Nat
  | active => 0
  | toDelete => 1
  | commentedOut => 2
  | temporary => 3

/-- What shows that something is commented out: a disabled step, or a calculation that begins with a
remark. -/
inductive Evidence where
  | none
  | step (n : Node)
  | calculation (text : String)

/-- Whether the evidence shows that a reference is commented out. -/
def Evidence.commented : Evidence → Bool
  | none => false
  | step n => n.attrD "enable" "True" == "False"
  | calculation t => beginsWith "/*" (trim t) || beginsWith "//" (trim t)

/-- The folders of scripts and layouts. -/
structure Folders where
  scripts : Register String
  layouts : Register String

/-- Whether a text in small letters speaks of deletion. -/
def speaksOfDeletion (t : String) : Bool :=
  has "to delete" t || has "todelete" t || has ">delete" t

/-- Whether a text in small letters speaks of temporary work. -/
def speaksOfTrial (t : String) : Bool := has "temp" t || has "debug" t

/-- What follows the first occurrence of a mark, up to the next one. -/
def afterMark (mark location : String) : Except Fault String :=
  match cutAt mark location with
  | _ :: t :: _ => .ok t
  | _ => .error .noSuchMember

/-- What stands before the first occurrence of a mark. -/
def beforeMark (mark t : String) : String := ((cutAt mark t).head?).getD ""

/-- Whether the folder of a name is kept for deletion. -/
def inDeletedFolder (folders : Register String) (name : String) : Bool :=
  match folders.get? name with
  | some path => speaksOfDeletion (lower path)
  | none => false

/-- The name of the script that a location tells. -/
def scriptIn (location : String) : Except Fault String := do
  return beforeMark "," (← afterMark "Script: " location)

/-- The name of the layout that a location tells. -/
def layoutIn (location : String) : Except Fault String := do
  return trim (beforeMark " Top:" (beforeMark "," (← afterMark "Layout: " location)))

/-- Whether a location lies in a folder that is kept for deletion. -/
def isDeleted (f : Folders) (location : String) : Except Fault Bool := do
  if speaksOfDeletion (lower location) then return true
  let script ← if has "Script:" location then
      pure (inDeletedFolder f.scripts (← scriptIn location))
    else pure false
  if script then return true
  if has "Layout:" location then return inDeletedFolder f.layouts (← layoutIn location)
  return false

/-- The standing of a reference with the given location and error. -/
def statusOf (f : Folders) (location error : String) (evidence : Evidence) :
    Except Fault Status := do
  if ← isDeleted f location then return .toDelete
  if speaksOfTrial (lower location) || speaksOfTrial (lower error) then return .temporary
  return if evidence.commented then .commentedOut else .active

end DesignAudit.Dangling
