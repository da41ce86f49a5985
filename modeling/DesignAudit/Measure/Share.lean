import DesignAudit.Measure.Trouble
import DesignAudit.Text.Column
import DesignAudit.Text.Search

/-!
# Shares of time

Of every bench it is measured which share of its time is spent in the program itself. A share below
zero stands for a bench that has failed. Benches should spend half of their time in the program, and
those that stay too far below that are marked.
-/

namespace DesignAudit.Measure

open Data Number Text

/-- The shares of all benches, and where else the time went. -/
structure Shares where
  percents : List (String × Binary) := []
  elsewhere : List (String × List (Binary × String)) := []

/-- Below this percentage a bench is marked. -/
def leastShare : Nat := 45

/-- The percentage that benches should reach. -/
def wantedShare : Nat := 50

def isValidShare (b : Binary) : Bool := !b.lt .zero

/-- Whether a bench stays too far below what it should reach. -/
def isLowShare (b : Binary) : Bool := isValidShare b && b.lt (.ofInt leastShare)

namespace Shares

/-- How many benches have not failed. -/
def valid (s : Shares) : Nat := s.percents.countP fun (_, b) => isValidShare b

/-- How many benches are marked. -/
def low (s : Shares) : Nat := s.percents.countP fun (_, b) => isLowShare b

/-- The number of marked benches, if there is a bench that has not failed. -/
def low? (s : Shares) : Option Nat := if s.valid == 0 then none else some s.low

/-- A part of the time that is spent elsewhere. -/
def partOfData (v : Value) : Except Trouble (Binary × String) :=
  match itemsOf v with
  | share :: name :: _ => do return (← realOf share, textOf name)
  | _ => .ok (.zero, "")

def ofData (v : Value) : Except Trouble Shares := do
  let percents ← membersOf (← member v "repo_time_pct") "items"
  let elsewhere ← membersOf (← member v "hot_ext") "items"
  return {
    percents := ← percents.mapM fun (name, p) => do return (name, ← realOf p)
    elsewhere := ← elsewhere.mapM fun (name, parts) => do
      return (name, ← (itemsOf parts).mapM partOfData) }

/-- Where else the time of a bench went. -/
def elsewhereNote (s : Shares) (name : String) : String :=
  match (s.elsewhere.lookup name).getD [] with
  | [] => ""
  | parts =>
    " (hot: " ++ join " " (parts.map fun (share, part) => part ++ " " ++ share.fixed 0 ++ "%") ++ ")"

def line (s : Shares) (name : String) (b : Binary) : String :=
  let shown := if isValidShare b then b else .zero
  let note := if !isValidShare b then "  <error>" else if isLowShare b then s.elsewhereNote name else ""
  (if isLowShare b then "  * " else "    ") ++ atLeft 32 name ++ " " ++ atRight 5 (shown.fixed 1) ++
  "%" ++ note

/-- The benches, those with the lowest share first. -/
def table (s : Shares) : List String :=
  if s.percents.isEmpty then []
  else
    let rows := s.percents.mergeSort fun a b => a.2.le b.2
    ["", s!"repo_time (target {wantedShare}%; * = below {leastShare}%):"] ++
    rows.map fun (name, b) => s.line name b

end Shares

end DesignAudit.Measure
