/-!
# Sets of characters given by ranges of code points

A property of characters that a standard fixes by enumeration is stored as a list of inclusive
ranges of code points, and membership is a search through that list. A long table is given by the
lengths of the runs of code points outside the set and inside it, in turn.
-/

namespace DesignAudit.Text

/-- Inclusive ranges of code points. -/
abbrev Ranges := List (Nat × Nat)

/-- A character is in the set when its code point is in one of the ranges. -/
def Ranges.has (rs : Ranges) (c : Char) : Bool :=
  rs.any fun r => Nat.ble r.1 c.toNat && Nat.ble c.toNat r.2

/-- The ranges of a set whose runs have the given lengths: outside it and inside it, in turn. -/
def Ranges.ofRuns (start : Nat) : List Nat → Ranges
  | outside :: inside :: rest =>
    (start + outside, start + outside + inside - 1) :: ofRuns (start + outside + inside) rest
  | _ => []

end DesignAudit.Text
