/-!
# Cells and rows

A row of a sheet gives values to columns by name, in the order of the columns.
-/

namespace DesignAudit.Sheet

inductive Cell where
  | empty
  | text (s : String)
  | whole (n : Int)
  /-- The number `digits · 10 ^ (-places)`. -/
  | decimal (digits : Int) (places : Nat)
  | truth (b : Bool)
  deriving DecidableEq, Repr, Inhabited

/-- Values by column, in the order of the columns. -/
abbrev Row := List (String × Cell)

/-- What an audit has found, and the lines it reports on the way. -/
structure Findings where
  log : List String := []
  rows : List Row := []
  deriving Repr

end DesignAudit.Sheet
