import DesignAudit.Occurrence.Tally
import DesignAudit.Sheet.Cell
import DesignAudit.Text.Order

/-!
# The audit of table occurrences

Each table occurrence gives a row with its base table, its uses and its relationships. Occurrences
with the fewest uses come first.
-/

namespace DesignAudit.Occurrence

open Markup Text Sheet Catalog

def relations (root : Site) : Register (List String) :=
  (root.all "Relationship").foldl (fun r s =>
    match (s.first? "LeftTable").bind (·.node.named? "name"),
        (s.first? "RightTable").bind (·.node.named? "name") with
    | some left, some right =>
      (r.update left [] (· ++ ["→ " ++ right])).update right [] (· ++ ["← " ++ left])
    | _, _ => r) .empty

/-- Whether an occurrence bears the name of its base table; a `z_` before one of them does not
matter. -/
def isSame (occurrence base : String) : Bool :=
  occurrence == base || occurrence == "z_" ++ base || base == "z_" ++ occurrence

structure Row where
  occurrence : String
  base : String
  count : Nat
  uses : List String
  relations : List String

def rowsOf (known : Register String) (root : Site) (text : List Char) :
    Except Fault (List Row) := do
  let tally ← Tally.of known.names root
  let relations := relations root
  return known.entries.map fun (occurrence, base) =>
    { occurrence, base
      count := countParts occurrence.toList text
      uses := distinct (tally.on occurrence)
      relations := relations.getD occurrence [] }

/-- Rows by number of uses, then by number of occurrences in the text, then by name. -/
def arranged (rows : List Row) : List Row :=
  sortBy (fun r => r.uses.length) (sortBy Row.count (sortBy Row.occurrence rows))

def Row.cells (r : Row) : Sheet.Row :=
  [("Table Occurrence", .text r.occurrence),
   ("Base Table", .text r.base),
   ("Same as Base", .text (if isSame r.occurrence r.base then "Yes" else "No")),
   ("XML Occurrences", .whole r.count),
   ("Usage Count", .whole r.uses.length),
   ("Usage Locations", .text (lines r.uses)),
   ("Relationships", .text (lines r.relations))]

/-- What is known of a document before the audit: the occurrences, and the root if there is one. -/
structure Given where
  occurrences : Register String
  root : Option Node

/-- The occurrences and the root that the audit works with. -/
def prepare (raw : String) (given : Option Given) : Except Fault (Register String × Site) :=
  match given with
  | some g =>
    match g.root with
    | some n => .ok (g.occurrences, Site.root n)
    | none => .error (.noRoot "findall")
  | none => do
    let root ← openDocument "findall" raw
    return (Catalog.occurrences root, root)

/-- The audit of the table occurrences of a document. -/
def audit (raw : String) (given : Option Given) : Findings :=
  let rows : Except Fault (List Row) := do
    let (known, root) ← prepare raw given
    rowsOf known root raw.toList
  match rows with
  | .ok rows => { rows := (arranged rows).map Row.cells }
  | .error fault => { log := ["Error in Table Occurrences Check: " ++ fault.message] }

end DesignAudit.Occurrence
