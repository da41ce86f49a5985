import DesignAudit.FieldUse.Calculation

/-!
# Notes on the uses of fields

The uses of a field are noted under the joined name of its table and itself: for each kind of place
the descriptions of the uses, in the order in which they are found. Calculations are searched one after
the other, and all of them add to the same notes.
-/

namespace DesignAudit.FieldUse

/-- The descriptions of the uses of one field, by kind of place. -/
structure Notes where
  texts : Place → List String := fun _ => []

/-- Adds the description of a use. -/
def Notes.add (n : Notes) (place : Place) (text : String) : Notes :=
  ⟨fun p => if p = place then n.texts p ++ [text] else n.texts p⟩

/-- A calculation that is to be searched. -/
structure Calculation where
  /-- The fields that are looked for. -/
  scope : Scope
  /-- The table that the calculation belongs to, if it belongs to one. -/
  table : Option String := none
  /-- How the place of the calculation is told. -/
  context : String
  text : String

/-- The uses of fields that a calculation makes. -/
def Calculation.uses (c : Calculation) : List Use :=
  calculationUses c.scope c.table c.context c.text

/-- What is known about the uses of fields, by joined name. -/
structure Usage where
  notes : Register Notes := .empty

namespace Usage

/-- The descriptions of the uses of a field in one kind of place. -/
def texts (m : Usage) (key : String) (place : Place) : List String :=
  (m.notes.getD key {}).texts place

def record (m : Usage) (u : Use) : Usage :=
  ⟨m.notes.update u.key {} (·.add u.place u.text)⟩

/-- Notes several uses, one after the other. -/
def recordAll (m : Usage) (uses : List Use) : Usage := uses.foldl record m

/-- Searches a calculation and notes the uses that it makes. -/
def search (m : Usage) (c : Calculation) : Usage := m.recordAll c.uses

/-- Searches several calculations, one after the other. -/
def searchAll (m : Usage) (cs : List Calculation) : Usage := cs.foldl search m

end Usage

end DesignAudit.FieldUse
