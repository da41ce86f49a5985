import DesignAudit.Run.Audit
import DesignAudit.Sample.Document

/-!
# Trials on samples

A trial carries out one part of the work on a sample and tells in short what came out, so that two
runs can be compared.
-/

namespace DesignAudit.Sample

open Data Run Sheet Text

inductive Trial where
  | pictographs
  | catalogue
  | audit (a : Audit)
  | encodings
  | report
  deriving DecidableEq, Repr

def Trial.all : List (String × Trial) :=
  [("emoji_normalise", .pictographs), ("build_catalogs", .catalogue),
   ("layouts_check", .audit .layouts), ("scripts_check", .audit .scripts),
   ("fields_check", .audit .fields), ("tables_check", .audit .occurrences),
   ("sql_check", .audit .queries), ("custom_functions_check", .audit .functions),
   ("unknown_check", .audit .unknown), ("normalise_and_hash", .encodings),
   ("full_parse_ddr", .report)]

/-- What the size of a trial counts: characters, or entities of the sample. -/
def Trial.counts : Trial → String
  | pictographs => "n_chars"
  | _ => "n_entities"

/-! ## Pictographs -/

/-- A text with pictographs of all kinds: single ones, pairs of regional indicators, keycaps,
joined ones, and marks that are none. -/
def pictographSample : String :=
  "plain ASCII text 😀 “hello” 🇺🇸 1️⃣ 👨‍👩‍👧 ® ™ ⚠ * # text é å π ‘x’ ❤️ "

/-- The first characters of a text that is repeated without end. -/
def cycled (text : List Char) (n : Nat) : List Char :=
  ((List.replicate (n / text.length + 1) text).flatten).take n

/-- A text of the given length without its pictographs. -/
def plainText (characters : Int) : String :=
  String.ofList (Normal.withoutPictographs category
    (cycled pictographSample.toList characters.toNat))

/-! ## Audits -/

/-- What the checks are given for a sample. -/
def material (text : String) : Except Fault Material := do
  let root ← tree text
  return { text, root, catalogue := { catalogue := ← catalogueOf root } }

def cellValue : Cell → Value
  | .text s => .text s
  | .whole n => .whole n
  | .truth b => .truth b
  | _ => .null

def columnsOf (columns : List String) (r : Row) : Value :=
  .list (columns.map fun c => cellValue ((r.lookup c).getD .empty))

def textsValue (xs : List String) : Value := .list (xs.map .text)

/-- The texts of a column, in order. -/
def namesIn (column : String) (rows : List Row) : List String :=
  sorted (rows.filterMap fun r => match r.lookup column with
    | some (.text s) => some s
    | _ => none)

/-- The fields whose uses are counted, with their ids. -/
def countedFields : Register (Option String) :=
  ⟨[("PrimaryKey", some "1"), ("FieldA", some "2"), ("FieldB", some "3")]⟩

/-- A calculation that refers to the fields of a table in every way. -/
def usageTemplate : String :=
  r#"$table::FieldA & $table::FieldB & $table.FieldA & $table.FieldB & $table.PrimaryKey & <<FieldA>> & <<FieldB>> & PlaceholderText <Chunk type="FieldRef"><Field id="2" table="$table" name="FieldA"/></Chunk>"#

/-- How often the counted fields are used when the calculation of every table is read twice, once as
a calculation of the table and once as one of no table. -/
def usageCounts (s : Scale) : List (String × Nat) :=
  let scope : FieldUse.Scope := ⟨⟨s.tables.map fun t => (t, countedFields)⟩, .empty⟩
  let uses := s.tables.flatMap fun t =>
    let calculation := fill [("table", t)] usageTemplate
    FieldUse.calculationUses scope (some t) t calculation ++ FieldUse.calculationUses scope none t calculation
  let keys := uses.map (·.key)
  (ascending keys).map fun k => (k, keys.count k)

def auditSummary (s : Scale) (a : Audit) (rows : List Row) : Value :=
  match a with
  | .layouts => textsValue (namesIn "Layout Name" rows)
  | .scripts => textsValue (namesIn "Script Name" rows)
  | .fields => .list [.whole rows.length,
      .list ((usageCounts s).map fun (k, n) => .list [.text k, .whole n])]
  | .occurrences => .list (rows.map (columnsOf ["Table Occurrence", "Usage Count", "Same as Base"]))
  | .queries =>
    let key (r : Row) := ["Category", "Error Status", "Table Exists"].map fun c =>
      match r.lookup c with
      | some (.text t) => t
      | _ => ""
    .list ((sortBy key rows).map fun r => textsValue (key r))
  | .functions => .list (rows.map (columnsOf ["Custom Function", "Usage Count"]))
  | .unknown => .list (rows.map (columnsOf ["Type", "Status"]))

/-! ## Whole runs -/

/-- The titles of the sheets of a run over a sample, and the number of findings. -/
def reportSummary (debug : Bool) (m : Material) : Except String Value :=
  let run : Action Results := do (inOrder (← loadChecks (auditFiles debug))).foldlM (runCheck m) {}
  match (run.run { home := "" }).1 with
  | .ok r => .ok (.list [textsValue (sorted r.sheets.names), .whole r.total])
  | .error stop => .error stop.message

/-- A remark with a pictograph, so that the encodings of a sample differ in more than their width. -/
def pictographNote : String := "<!-- 😀 -->"

/-- The lengths of the normal form of a sample that is read from files in two encodings, and the name
under which it is kept. -/
def encodingSummary (text : List Char) : Value :=
  let length (s : Encoding.Scheme) : Value := .whole (normalText (Encoding.encode s text)).length
  .list [length .utf8, length (.utf16Marked .littleEndian),
    .text (cacheNameOf "ddr_utf8.xml" (Encoding.encode .utf8 text))]

/-- What the checks are given for a sample of a size. -/
def sampleOf (size : Int) : Except String Material :=
  (material (document size)).mapError Fault.message

/-- What a trial comes to, or why it fails. -/
def Trial.result (debug : Bool) (t : Trial) (size : Int) : Except String Value := do
  match t with
  | pictographs => return .text (plainText size)
  | catalogue =>
    let c := (← sampleOf size).catalogue.catalogue
    return textsValue (sorted c.scripts.names ++ sorted c.tables.names)
  | audit a => return auditSummary (.ofEntities size) a (← auditOf debug a (← sampleOf size)).rows
  | encodings => return encodingSummary (document size ++ pictographNote).toList
  | report => reportSummary debug (← sampleOf size)

end DesignAudit.Sample
