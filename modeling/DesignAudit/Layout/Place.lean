import DesignAudit.Fault
import DesignAudit.Number.Reading

/-!
# Places on a layout

The place of an object is given by its distances from the top and the left edge, rounded to whole
numbers. A distance that does not read as a number leaves the place unknown, while an infinite one
is a fault.
-/

namespace DesignAudit.Layout

open Markup Number

/-- A distance rounded to a whole number, a half going to the even one. -/
def distance (s : String) : Except Fault Int :=
  match real? s with
  | none => .error (.notReal s)
  | some .undefined => .error .undefinedCoordinate
  | some (.infinite _) => .error .infiniteCoordinate
  | some (.finite negative m e) => .ok (Binary.round negative m e)

/-- The distances from the top and the left edge. -/
def corner (bounds : Node) : Except Fault (Int × Int) := do
  let top ← distance (bounds.attrD "top" "0")
  let left ← distance (bounds.attrD "left" "0")
  return (top, left)

/-- The distances if they read as numbers; only an infinite one is still a fault. -/
def corner? (bounds : Node) : Except Fault (Option (Int × Int)) :=
  match corner bounds with
  | .ok c => .ok (some c)
  | .error .infiniteCoordinate => .error .infiniteCoordinate
  | .error _ => .ok none

/-- How a place is written. -/
def cornerText (c : Int × Int) : String := s!"Top: {c.1} Left: {c.2}"

/-- How a place that is not known is written. -/
def unknownPlace : String := "Unknown Position"

/-- The place given by bounds, if there are any. -/
def placeText (bounds : Option Node) : Except Fault String :=
  match bounds with
  | none => .ok unknownPlace
  | some b => return (match ← corner? b with
    | some c => cornerText c
    | none => unknownPlace)

/-- The place of an object, empty when it has no bounds. -/
def positionText (object : Site) : Except Fault String :=
  match object.first? "Bounds" with
  | none => .ok ""
  | some b => placeText (some b.node)

end DesignAudit.Layout
