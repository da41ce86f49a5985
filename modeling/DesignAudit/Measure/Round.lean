import DesignAudit.Data.Writing
import DesignAudit.Measure.Trouble

/-!
# Rounds

Every measurement that succeeds adds one line to the record of rounds. Measuring is over when no
bench is marked any more, or when the number of marked benches has not gone down for some rounds.

The best round is the first one with the least number of marked benches: a later round with the same
number is no improvement.
-/

namespace DesignAudit.Measure

open Data Number Text

/-! ## The record -/

/-- The lines of a record of rounds; blank ones do not count. -/
def recordLines (text : String) : List String :=
  (cutAt "\n" text).filter fun line => line.toList.any (!isBlank ·)

/-- The number of the round that follows a record. -/
def nextRound (text : String) : Nat := (recordLines text).length + 1

/-- The name of the number of marked benches in a record. -/
def lowName : String := "n_below_repo_time"

/-- A number of marked benches as a record may hold it. -/
inductive Held where
  | whole (n : Int)
  | truth (b : Bool)
  deriving DecidableEq, Repr

/-- The number that is held; a truth value counts as one or as zero. -/
def Held.value : Held → Int
  | whole n => n
  | truth b => if b then 1 else 0

/-- How a number that is held is told. -/
def Held.shown : Held → String
  | whole n => toString n
  | truth b => if b then "True" else "False"

/-- The number that a value holds. -/
def held? : Value → Option Held
  | .whole n => some (.whole n)
  | .truth b => some (.truth b)
  | _ => none

/-- The numbers of marked benches in the lines of a record, up to the first line that cannot be
read, and whether there is no such line. Lines without a number are left out. -/
def gather : List String → List Held × Bool
  | [] => ([], true)
  | line :: rest =>
    match (do member (← readData line) lowName) with
    | .error _ => ([], false)
    | .ok v =>
      let (lows, complete) := gather rest
      ((held? v).toList ++ lows, complete)

/-- The time since the last line of a record, and zero where there is none. -/
def sinceLast (now : Binary) (lines : List String) : Except Trouble Binary :=
  match lines.getLast? with
  | none => .ok .zero
  | some line => do
    let v ← readData line
    match ← member v "ts" with
    | .null => if v.members.any (·.1 == "ts") then .error (.noNumber (kindName .null)) else return .zero
    | .whole n => return now.sub (.ofInt n)
    | .real b => return now.sub b
    | other => .error (.noNumber (kindName other))

/-- What a record tells: the numbers of marked benches in earlier rounds, and the time since the
last one. The last line is read before the numbers are gathered. There is no time where a line
cannot be read. -/
def readRecord (now : Binary) (text : String) : List Held × Option Binary :=
  let lines := recordLines text
  match sinceLast now lines with
  | .error _ => ([], none)
  | .ok since =>
    let (lows, complete) := gather lines
    (lows, if complete then some since else none)

/-- A record with one more round. -/
def withRound (text : String) (round : Value) : String := text ++ round.written ++ "\n"

/-! ## The end of measuring -/

/-- The least number so far, and how many rounds have followed its first occurrence. -/
structure Plateau where
  best : Held
  since : Nat
  deriving DecidableEq, Repr

/-- One more round. -/
def Plateau.step (p : Option Plateau) (n : Held) : Option Plateau :=
  match p with
  | none => some ⟨n, 0⟩
  | some p => some (if n.value < p.best.value then ⟨n, 0⟩ else ⟨p.best, p.since + 1⟩)

/-- The plateau after some rounds. -/
def plateau (numbers : List Held) : Option Plateau := numbers.foldl Plateau.step none

/-- After this many rounds without improvement measuring is over. -/
def patience : Nat := 3

/-- Measuring is not over before this percentage is covered. -/
def wantedCoverage : Nat := 60

/-- Why measuring is over. -/
inductive Over where
  | noneLow
  | noImprovement (p : Plateau)
  deriving DecidableEq, Repr

/-- Whether and why measuring is over, given the coverage, the earlier numbers of marked benches and
the current one, which is missing if no bench has a valid share. -/
def over? (percent : Binary) (earlier : List Held) (low : Option Nat) : Option Over :=
  match low with
  | none => none
  | some n =>
    if !(Binary.ofInt wantedCoverage).le percent then none
    else if n == 0 then some .noneLow
    else (plateau (earlier ++ [.whole n])).bind fun p =>
      if patience ≤ p.since then some (.noImprovement p) else none

/-- Why measuring is over, in words. -/
def Over.reason : Over → String
  | noneLow => "0 below"
  | noImprovement p =>
    let since := p.since
    let best := p.best.shown
    s!"no improvement in {since} rounds; best {best} below"

/-- What is told when measuring is over. -/
def Over.note (o : Over) : List String :=
  let reason := o.reason
  ["", s!">>> STOP: repo_time converged ({reason}). Finalize microbench.py now. <<<"]

end DesignAudit.Measure
