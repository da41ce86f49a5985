import DesignAudit.Register
import DesignAudit.Text.Blank
import DesignAudit.Text.Search

/-!
# Occurrences of script names

The text of a document is gone through once for the names of all scripts, overlapping occurrences
included, and each occurrence is entered in the tally of its name. A script has a definition and a
mention of itself, so a count is raised to two at least. For tracing, the lines with occurrences are
kept, each occurrence marked.
-/

namespace DesignAudit.Script

open Text

/-! ## The search -/

/-- The occurrences of names that end in a text, each by the position of its last character. The
position of the text is `i`, and `passed` stands before it, last character first; the names are
given with their characters in this order. -/
def endsFrom (names : List (List Char × String)) :
    Nat → List Char → List Char → List (Nat × String) → List (Nat × String)
  | _, _, [], found => found.reverse
  | i, passed, c :: rest, found =>
    endsFrom names (i + 1) (c :: passed) rest
      (names.foldl (fun f n => if n.1.isPrefixOf (c :: passed) then (i, n.2) :: f else f) found)

/-- The occurrences of names in a text, from left to right. -/
def occurrences (names : List String) (text : List Char) : List (Nat × String) :=
  endsFrom (names.map fun n => (n.toList.reverse, n)) 0 [] text []

/-! ## Lines -/

/-- The lines of a text, and the position at which each one begins, with the position behind the
last one. -/
structure LineTable where
  lines : List (List Char)
  starts : List Nat

/-- The positions behind the lines, each line with its line feed, the first line beginning at `i`.
-/
def lineEnds : Nat → List (List Char) → List Nat
  | _, [] => []
  | i, line :: rest => (i + line.length + 1) :: lineEnds (i + line.length + 1) rest

def LineTable.of (text : List Char) : LineTable :=
  let lines := cut ['\n'] text
  ⟨lines, 0 :: lineEnds 0 lines⟩

/-- The number of the line that a position lies in: the one before the first line that begins behind
the position. -/
def LineTable.number (t : LineTable) (position : Nat) : Int :=
  match t.starts.findIdx? fun start => decide (position < start) with
  | some k => (k : Int) - 1
  | none => 0

/-- The line that a position lies in, if there is one of this number. -/
def LineTable.line? (t : LineTable) (position : Nat) : Option (List Char) :=
  let k := t.number position
  if 0 ≤ k ∧ k < t.lines.length then t.lines[k.toNat]? else none

/-- A line with each occurrence of a name marked, cut down to the surroundings of the first one
when it is long. -/
def marked (name line : List Char) : String :=
  let mark := '*' :: '*' :: name ++ ['*', '*']
  let shown := replaceParts name mark line
  let shown :=
    if shown.length > 200 then
      match position? mark shown with
      | some i =>
        let first := i - 80
        let past := min shown.length (i + mark.length + 80)
        "...".toList ++ (shown.take past).drop first ++ "...".toList
      | none => shown
    else shown
  trim (String.ofList shown)

/-! ## Tallies -/

/-- What is recorded of a name: how often it occurs, and the lines in which it does. -/
structure Tally where
  count : Nat := 0
  lines : List String := []
  deriving DecidableEq, Repr

/-- Enters an occurrence. With a table of lines the line is kept, but no more than fifty of them. -/
def Tally.enter (t : Tally) (table : Option LineTable) (name : String) (last : Nat) : Tally where
  count := t.count + 1
  lines :=
    match table with
    | none => t.lines
    | some table =>
      if t.lines.length < 50 then
        t.lines ++ ((table.line? last).map (marked name.toList)).toList
      else t.lines

/-- The tallies of names after a search. -/
def counted (table : Option LineTable) (names : List String) (found : List (Nat × String)) :
    Register Tally :=
  found.foldl (fun r x => r.update x.2 {} (·.enter table x.2 x.1)) (.ofList (names.map (·, {})))

/-- Lines filled up to two. -/
def filled : List String → List String
  | [] => ["(Script definition assumed)", "(Self-reference assumed)"]
  | [line] => [line, "(Self-reference assumed)"]
  | more => more

/-- Raises a count to two at least, with the lines if they are kept. -/
def Tally.raise (tracing : Bool) (t : Tally) : Tally :=
  if t.count < 2 then { count := 2, lines := if tracing then filled t.lines else t.lines } else t

def raised (tracing : Bool) (names : List String) (tallies : Register Tally) : Register Tally :=
  names.foldl (fun r n => r.update n {} (Tally.raise tracing)) tallies

/-- The tallies of names, from what a search found. -/
def tallied (table : Option LineTable) (names : List String) (found : List (Nat × String)) :
    Register Tally :=
  raised table.isSome names (counted table names found)

end DesignAudit.Script
