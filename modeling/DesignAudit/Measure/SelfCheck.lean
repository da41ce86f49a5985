import DesignAudit.Measure.Trouble
import DesignAudit.Text.Column
import DesignAudit.Text.Search

/-!
# Self-checks

A bench should return something that tells whether it still does the same work. This module judges
what was observed of a bench. The judgements are tried in a fixed order, and the first that applies
counts.
-/

namespace DesignAudit.Measure

open Data Number Text

/-- What is judged of a bench. -/
inductive Verdict where
  | programModified
  | failed
  | returnsNothing
  | unstable
  | returnsInput
  | littleInProgram
  | tooFast
  | sameForAll
  | unparametrised
  | sound
  deriving DecidableEq, Repr

def Verdict.name : Verdict → String
  | programModified => "repo-modified"
  | failed => "error"
  | returnsNothing => "returns-none"
  | unstable => "unstable"
  | returnsInput => "returns-input"
  | littleInProgram => "low-repo-time"
  | tooFast => "too-fast"
  | sameForAll => "param-invariant"
  | unparametrised => "ok-unparam"
  | sound => "ok"

/-- Whether a bench has to be mended. -/
def Verdict.needsFix (v : Verdict) : Bool := v != unparametrised && v != sound

structure Observation where
  /-- The kind of value it returns. -/
  returned : String
  /-- Fingerprints of what two runs return. -/
  twice : List String
  /-- Fingerprints of its parameters. -/
  inputs : List String
  /-- Fingerprints of what it returns for different parameters. -/
  perParameter : List String
  /-- Its times. -/
  times : List Binary
  /-- The shares of them that are spent in the program. -/
  shares : List Binary

/-- The least of some numbers. -/
def least? (xs : List Binary) : Option Binary :=
  xs.foldl (fun best x => match best with
    | none => some x
    | some b => some (if x.lt b then x else b)) none

/-- The number in the middle of some numbers, or half way between the two in the middle. -/
def median? (xs : List Binary) : Option Binary :=
  let sorted := xs.mergeSort Binary.le
  let half := xs.length / 2
  match sorted[half]?, sorted[half - 1]? with
  | some upper, some lower =>
    if xs.length % 2 == 1 then some upper else (lower.add upper).div (.ofInt 2)
  | _, _ => none

namespace Observation

def ofData (v : Value) : Except Trouble Observation := do
  let texts (v : Value) := (itemsOf v).map textOf
  let numbers (name : String) : Except Trouble (List Binary) := do
    (← membersOf (← member v name) "values").mapM fun (_, x) => realOf x
  return {
    returned := textOf (← member v "ret_type")
    twice := texts (← member v "fp_stable")
    inputs := texts (← member v "param_fps")
    perParameter := (← membersOf (← member v "fp_by_param") "values").map fun (_, x) => textOf x
    times := ← numbers "repo_tt_ms"
    shares := ← numbers "repo_frac" }

/-- Whether two runs return the same. -/
def isStable (o : Observation) : Bool :=
  match o.twice with
  | a :: b :: _ => a == b
  | _ => false

/-- Whether one of the parameters is returned. -/
def isInput (o : Observation) : Bool := o.twice.head?.any o.inputs.contains

/-- Whether less than half of the time is spent in the program. -/
def isElsewhere (o : Observation) : Bool :=
  (least? o.shares).any fun share => (share.add share).lt (.ofInt 1)

/-- Whether a run takes less than a unit of time. -/
def isTooFast (o : Observation) : Bool := (median? o.times).any (·.lt (.ofInt 1))

/-- Whether the same is returned for all parameters. -/
def isSame (o : Observation) : Bool := o.perParameter.all (some · == o.perParameter.head?)

/-- The judgement of a bench, given whether the program was modified. -/
def verdict (modified : Bool) (o : Observation) : Verdict :=
  if modified then .programModified
  else if o.returned == "" || beginsWith "<" o.returned then .failed
  else if o.returned == "NoneType" then .returnsNothing
  else if !o.isStable then .unstable
  else if o.isInput then .returnsInput
  else if o.isElsewhere then .littleInProgram
  else if o.isTooFast then .tooFast
  else if o.perParameter.length < 2 then .unparametrised
  else if o.isSame then .sameForAll
  else .sound

def line (o : Observation) (name : String) (v : Verdict) : String :=
  let returned := if o.returned == "" then "?" else o.returned
  let share := (((least? o.shares).getD .zero).roundTo 2).mul (.ofInt 100)
  let time := ((median? o.times).getD .zero).roundTo 2
  (if v.needsFix then "  * " else "    ") ++ atLeft 32 name ++ " " ++ atLeft 16 v.name ++ " (" ++
  returned ++ ", repo " ++ share.fixed 0 ++ "%) " ++ time.fixed 1 ++ "ms"

end Observation

/-- A bench with its observation and its judgement. -/
structure Judged where
  name : String
  observation : Observation
  verdict : Verdict

/-- Judges the benches that are told by data. What is no record is left out. -/
def judgedOfData (modified : Bool) (v : Value) : Except Trouble (List Judged) := do
  let benches ← membersOf (← member v "semcheck") "items"
  (benches.filter fun (_, b) => b.isRecord).mapM fun (name, b) => do
    let o ← Observation.ofData b
    return ⟨name, o, o.verdict modified⟩

/-- What is advised for some of the verdicts. -/
def advice : List String :=
  ["  returns-none: run() has no return — collect and return the call results",
   "  unstable: seed RNG in setup; avoid time/uuid/id in the return",
   "  returns-input: return repo output, not the parameter value",
   "  low-repo-time: <50% of run() time is in repo code — move glue to setup",
   "  param-invariant: return something derived from run()'s work, not setup",
   "  repo-modified: revert edits to repo files (git checkout -- <path>)"]

/-- The benches, those that have to be mended first. -/
def judgedTable (benches : List Judged) : List String :=
  if benches.isEmpty then []
  else
    let (mend, keep) := benches.partition (·.verdict.needsFix)
    ["", "self-check (* = fix needed):"] ++ advice ++
    (mend ++ keep).map fun j => j.observation.line j.name j.verdict

def toMend (benches : List Judged) : Nat := benches.countP (·.verdict.needsFix)

/-! ## Modified files -/

/-- How many modified files are shown. -/
def shownModified : Nat := 10

/-- The files that a status listing names as modified; two letters and a space stand before each. -/
def modifiedFiles (listing : String) : List String :=
  ((cutAt "\n" listing).filter fun line => line.toList.any (!isBlank ·)).map (skip 3)

/-- What is told about modified files. -/
def modifiedNote (files : List String) : List String :=
  if files.isEmpty then []
  else
    let count := files.length
    ["", s!"** repo modified ({count} file(s)) — revert these; only microbench.py is yours to edit:"] ++
    (files.take shownModified).map ("   " ++ ·)

end DesignAudit.Measure
