import DesignAudit.Book.Page
import DesignAudit.Dangling.Audit
import DesignAudit.FieldUse.Audit
import DesignAudit.Function.Audit
import DesignAudit.Layout.Audit
import DesignAudit.Occurrence.Audit
import DesignAudit.Query.Audit
import DesignAudit.Run.Material
import DesignAudit.Script.Audit

/-!
# Checks

A run carries out checks: the seven audits, or others that are supplied with it. A check tells where
its sheet stands, what it is called and how it looks; each of these may be left open.
-/

namespace DesignAudit.Run

open Number Sheet

/-- Where a check wants its sheet. -/
inductive Rank where
  | open
  | number (b : Binary)
  /-- A numeral that is still to be read. -/
  | numeral (s : String)
  deriving DecidableEq, Repr

/-- The place of a sheet. Sheets whose place is left open come last. -/
def Rank.value : Rank → Except Fault Binary
  | .open => .ok (.infinite false)
  | .number b => .ok b
  | .numeral s =>
    match real? s with
    | some b => .ok b
    | none => .error (.notReal s)

/-- A check. What can go wrong in it is told by a message. -/
structure Check where
  rank : Rank := .open
  /-- What the check finds; a check without this is not run. -/
  run? : Option (Material → Except String Findings)
  /-- The title of its sheet, which is asked for when it has found something. -/
  title? : Option (Except String String) := none
  format : Book.Format := {}

/-- The audit of unknown references, for which no part of the catalogue may be lacking. -/
def auditReferences (m : Material) : Except String Findings :=
  match m.catalogue.firstLacking? Catalog.Part.ofReferences with
  | some part => .error (Text.quoted part.name)
  | none => .ok (Dangling.audit (some ⟨m.catalogue.catalogue, m.root⟩))

def auditOf (debug : Bool) (a : Audit) (m : Material) : Except String Findings :=
  match a with
  | .functions => .ok (Function.audit m.text)
  | .fields => .ok (FieldUse.audit m.text)
  | .layouts => .ok (Layout.audit m.text)
  | .queries => .ok (Query.audit m.text)
  | .scripts => .ok (Script.audit debug m.text)
  | .occurrences =>
    .ok (Occurrence.audit m.text (some ⟨m.catalogue.catalogue.occurrences, m.root⟩))
  | .unknown => auditReferences m

/-- How the sheet of an audit looks. -/
def formatOf (debug : Bool) (a : Audit) : Book.Format :=
  { widths := (a.widths debug).map fun (column, w) => (column, .ofInt w), style := a.style }

def Check.ofAudit (debug : Bool) (a : Audit) : Check :=
  { rank := .number (.ofInt a.order)
    run? := some (auditOf debug a)
    title? := some (.ok a.title)
    format := formatOf debug a }

/-- A file with a check: the check, or why it cannot be loaded. -/
abbrev CheckFile := Except String Check

/-- What the names of files with checks end in. -/
def checkExtension : String := ".py"

def auditFiles (debug : Bool) : List (String × CheckFile) :=
  Audit.all.map fun a => (a.name ++ checkExtension, .ok (.ofAudit debug a))

end DesignAudit.Run
