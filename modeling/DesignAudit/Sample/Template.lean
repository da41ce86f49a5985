import DesignAudit.Text.Search

/-!
# Templates of a sample

A sample is a report made up for measuring. Its parts are templates with slots: a slot is a dollar
sign and the letters after it. What the parts refer to is taken in turn from the names of the sample.
-/

namespace DesignAudit.Sample

open Text

/-- Puts the value of a slot in front of the text after it. -/
def fillSlot (values : List (String × String)) (piece : String) : String :=
  let slot := piece.toList.takeWhile Char.isAlpha
  (values.lookup (String.ofList slot)).getD "" ++ skip slot.length piece

def fill (values : List (String × String)) (template : String) : String :=
  match cutAt "$" template with
  | [] => ""
  | first :: pieces => first ++ join "" (pieces.map (fillSlot values))

/-- The names of a stem that are numbered from zero. -/
def numbered (stem : String) (n : Nat) : List String := (List.range n).map fun i => stem ++ toString i

/-- The name at a place; the names are taken in turn again and again. -/
def pick (names : List String) (i : Nat) : String := names.getD (i % names.length) ""

/-- What a sample declares. -/
structure Scale where
  tables : List String
  layouts : List String
  scripts : List String
  functions : List String

/-- The smallest number of entities in a sample. -/
def leastEntities : Nat := 2

/-- A sample with a number of entities of each kind; a few with telling names are added to them. -/
def Scale.ofEntities (entities : Int) : Scale :=
  let n := max leastEntities entities.toNat
  { tables := numbered "Tbl" n ++ ["Globals", "ImportStaging"]
    layouts := numbered "Layout_" n ++ ["Delete_Me", "Debug_View"]
    scripts := numbered "Script_" n ++ ["RunOnServer_Sync", "Debug_Trace", "Dev Playground Sandbox"]
    functions := numbered "CustFn_" (max leastEntities (n / 2)) }

/-- The text of something for every name. -/
def forEach (names : List String) (f : Nat → String → String) : List String :=
  names.zipIdx.map fun (name, i) => f i name

end DesignAudit.Sample
