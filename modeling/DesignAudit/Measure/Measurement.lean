import DesignAudit.Measure.Coverage
import DesignAudit.Measure.Round
import DesignAudit.Measure.SelfCheck
import DesignAudit.Measure.Share
import DesignAudit.Text.Pattern

/-!
# A measurement

A measurement runs others: one that measures coverage, and where they are there, one that measures
shares of time and one that observes benches. It tells what they have found and adds a round to the
record. Only the coverage is indispensable: trouble with anything else is told, or passed over, and
the measurement goes on without it.
-/

namespace DesignAudit.Measure

open Data Number Text

/-- What a measurement runs. -/
inductive Child where
  | coverage
  | shares
  | status
  | selfCheck
  deriving DecidableEq, Repr

/-- How the run of a child ends. -/
inductive Outcome where
  | ended (code : Int) (out err : String)
  | notStarted (reason : String)

structure Setting where
  files : Register String
  outcome : Child → Outcome
  /-- How long the coverage run took. -/
  seconds : Binary
  now : Binary
  /-- Whether nothing can be added to the record. -/
  readOnly : Bool

/-- What a measurement tells and leaves behind. -/
structure Result where
  exit : Option Int := none
  log : List String := []
  errors : String := ""
  ran : List Child := []
  round : Option Value := none

/-! ## Files -/

def coverageFile : String := "_pti_coverage.json"

def benchFile : String := "microbench.py"

def recordFile : String := ".pti_checkpoint.jsonl"

/-- The file of the child that measures shares. -/
def shareFile : String := "_pti_repotime.py"

/-- The file of the child that observes benches. -/
def selfCheckFile : String := "_pti_semcheck.py"

/-- The begin of the definition of a bench. -/
def benchPattern : Pattern :=
  .all [.lineStart, .text "def bench_", .oneOrMore isWord, .many isBlank, .text "("]

def benchCount (text : String) : Nat := (benchPattern.allFrom 0 none text.toList).length

/-! ## Children -/

/-- What came of a part of the measurement. -/
structure Stage (α : Type) where
  found : α
  errors : String := ""
  ran : List Child := []

/-- The last line of what a child has put out, if it has put out anything. -/
def lastLine? (out : String) : Option String :=
  let text := trim out
  if text == "" then none else (cutAt "\n" text).getLast?

/-- What is told about trouble with a child. -/
def troubleNote (name : String) (t : Trouble) : String :=
  let kind := t.kind
  let message := t.message
  s!"[{name} runner: {kind}: {message}]\n"

/-- Reads the last line that a child has put out. Trouble is told, and nothing is found then. -/
def fromChild {α : Type} (name : String) (child : Child) (none : α)
    (read : Value → Except Trouble α) (o : Outcome) : Stage α :=
  match o with
  | .notStarted reason => ⟨none, troubleNote name (.notStarted reason), [child]⟩
  | .ended _ out err =>
    match lastLine? out with
    | .none => ⟨none, err, [child]⟩
    | some line =>
      match (do read (← readData line)) with
      | .ok found => ⟨found, err, [child]⟩
      | .error t => ⟨none, err ++ troubleNote name t, [child]⟩

/-- The shares of time, where there is a child that measures them. -/
def sharesStage (s : Setting) : Stage Shares :=
  if s.files.has shareFile then fromChild "repotime" .shares {} Shares.ofData (s.outcome .shares)
  else ⟨{}, "", []⟩

/-- The modified files of the program. -/
def statusFiles : Outcome → List String
  | .ended _ out _ => modifiedFiles out
  | .notStarted _ => []

/-- The modified files and the judgement of the benches, where there is a child that observes them.
-/
def selfCheckStage (s : Setting) : Stage (List String × List Judged) :=
  if s.files.has selfCheckFile then
    let modified := statusFiles (s.outcome .status)
    let judged := fromChild "semcheck" .selfCheck [] (judgedOfData (!modified.isEmpty))
      (s.outcome .selfCheck)
    ⟨(modified, judged.found), judged.errors, .status :: judged.ran⟩
  else ⟨([], []), "", []⟩

/-! ## The round -/

structure Found where
  coverage : Coverage
  benches : Nat
  shares : Shares
  judged : List Judged

/-- The line that sums up a round. -/
def Found.summary (f : Found) (round : Nat) (seconds : Binary) : String :=
  let parts :=
    [s!"{f.benches} benches", f.coverage.percent.fixed 1 ++ "% covered"] ++
    (if f.shares.percents.isEmpty then []
      else [s!"{f.shares.low}/{f.shares.valid} below repo_time {leastShare}%"]) ++
    (if f.judged.isEmpty then []
      else [s!"{toMend f.judged}/{f.judged.length} not self-checking"]) ++
    ["measured in " ++ seconds.fixed 1 ++ "s"]
  let all := join ", " parts
  s!"[round {round}: {all}]"

def Found.record (f : Found) (s : Setting) (round : Nat) (since : Binary) : Value :=
  .record [
    ("round", .whole round),
    ("ts", .real s.now),
    ("wall_since_prev_s", .real (since.roundTo 2)),
    ("coverage_pct", .real f.coverage.percent),
    ("covered_lines", .whole f.coverage.covered),
    ("num_statements", .whole f.coverage.statements),
    ("n_bench_fns", .whole f.benches),
    ("n_bench_errors", .whole f.coverage.failures),
    ("cov_measure_s", .real (s.seconds.roundTo 3)),
    ("repo_time_pct", .record (f.shares.percents.map fun (name, b) => (name, .real b))),
    (lowName, match f.shares.low? with
      | some n => .whole n
      | none => .null),
    ("semcheck", .record (f.judged.map fun j => (j.name, .text j.verdict.name))),
    ("n_not_self_checking", .whole (toMend f.judged))]

/-- The earlier numbers of marked benches and the round to be added. Nothing is added to a record
that cannot be read, but the numbers before the first faulty line count. -/
def addRound (s : Setting) (f : Found) : List Held × Option Value :=
  let text := s.files.getD recordFile ""
  let (lows, since?) := readRecord s.now text
  (lows, if s.readOnly then none else since?.map fun since => f.record s (nextRound text) since)

/-! ## The measurement -/

/-- What is told when the coverage could not be measured. -/
def failedNote (code : Int) (out : String) : List String :=
  s!"coverage measurement failed (exit {code})" :: cutAt "\n" out

/-- Tells what a round has found, and adds it to the record. -/
def conclude (s : Setting) (coverage : Coverage) (err : String) : Result :=
  let shares := sharesStage s
  let checks := selfCheckStage s
  let (modified, judged) := checks.found
  let found : Found :=
    ⟨coverage, benchCount (s.files.getD benchFile ""), shares.found, judged⟩
  let (earlier, round) := addRound s found
  let number := nextRound (s.files.getD recordFile "")
  let outcome := match over? coverage.percent earlier shares.found.low? with
    | some o => o.note
    | none => []
  { log := coverage.table ++ shares.found.table ++ modifiedNote modified ++ judgedTable judged ++
      ["", found.summary number s.seconds] ++ outcome
    errors := err ++ shares.errors ++ checks.errors
    ran := .coverage :: shares.ran ++ checks.ran
    round }

/-- Carries out a measurement. -/
def measure (s : Setting) : Except Trouble Result :=
  match s.outcome .coverage, s.files.get? coverageFile with
  | .notStarted reason, _ => .error (.notStarted reason)
  | .ended code out err, text =>
    match if code == 0 then text else none with
    | none => .ok { exit := some (if code == 0 then 1 else code), log := failedNote code out,
                    errors := err, ran := [.coverage] }
    | some text => do return conclude s (← Coverage.ofData (← readData text)) err

end DesignAudit.Measure
