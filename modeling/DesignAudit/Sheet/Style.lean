import DesignAudit.Number.Reading
import DesignAudit.Sheet.Audit
import DesignAudit.Sheet.Grid
import DesignAudit.Text.Case
import DesignAudit.Text.Search

/-!
# The look of the sheets

How the rows of each audit are coloured, as strokes that follow from the values of a row. Findings
that call for action are red, those that call for a look are yellow, and high counts are green.
-/

namespace DesignAudit.Sheet

open Text

/-! ## Counts -/

/-- The whole number that a cell shows, if it shows one. A cell that counts as nothing shows
zero. -/
def Cell.count? (c : Cell) : Option Int :=
  if Grid.isNothing c then some 0
  else
    match c with
    | .empty => some 0
    | .text s => Number.whole? s
    | .whole n => some n
    | .decimal digits places => some (Int.tdiv digits (Int.pow 10 places))
    | .truth b => some (if b then 1 else 0)

def mediumGreen : Font := { colour := some "388E3C", bold := true }

/-- The font of a count of uses: red for none, green for many. -/
def countFont (p : Palette) (redIfNone : Bool) (n : Int) : Option Font :=
  if n == 0 then if redIfNone then some (p.boldOf .error) else none
  else if n ≥ 10 then some (p.boldOf .success)
  else if n ≥ 5 then some mediumGreen
  else none

/-- The strokes on a column with counts of uses. -/
def countStrokes (p : Palette) (redIfNone : Bool) (column : String) (v : Values) : List Stroke :=
  match ((v.get? column).bind Cell.count?).bind (countFont p redIfNone) with
  | some f => [.letter column f]
  | none => []

/-- The strokes that set off a whole row in a tone, with some columns in bold. -/
def rowStrokes (p : Palette) (tone : Tone) (bold : List String) : List Stroke :=
  .fillRow (p.fillOf tone) :: bold.map (.letter · (p.boldOf tone))

/-- The strokes that set off one cell in a tone. -/
def cellStrokes (p : Palette) (tone : Tone) (column : String) : List Stroke :=
  [.fill column (p.fillOf tone), .letter column (p.boldOf tone)]

/-! ## The audits -/

def functionStrokes (v : Values) : List Stroke :=
  let p := Palette.functions
  (if v.text "Status" == "Unused" then rowStrokes p .error ["Status", "Used In"] else []) ++
  countStrokes p true "Usage Count" v

/-- Fields. A count of occurrences above two is green, but yellow when the field is not used. -/
def fieldStrokes (v : Values) : List Stroke :=
  let p := Palette.standard
  let names := ["Status", "Table Name", "Field Name"]
  let status := v.text "Status"
  (if status == "Not Used" then rowStrokes p .error names
  else if ["System", "Cached", "Comment", "Imported"].contains status then
    rowStrokes p .warning names
  else []) ++
  countStrokes p true "Usage Count" v ++
  match (v.get? "XML Count").bind Cell.count? with
  | some n =>
    if n > 2 then
      [.letter "XML Count" (p.boldOf .success), .fill "XML Count" .plain] ++
      if ((v.get? "Usage Count").bind Cell.count?) == some 0 && status == "Not Used" then
        cellStrokes p .warning "XML Count"
      else []
    else []
  | none => []

/-- Layouts. The status is worded anew for folders that are kept for deletion or debugging. -/
def layoutStrokes (v : Values) : List Stroke :=
  let p := Palette.standard
  let path := lower (v.text "Path")
  let unused := has "NOT USED" (v.text "Status")
  let mark := if unused then "⚠️ " else ""
  (if !v.has "Status" then []
  else if has "delete" path || has "debug" path then
    let status := if has "delete" path then "In Delete Folder" else "In Debug Folder"
    .write "Status" (.text (mark ++ status)) :: rowStrokes p .warning ["Status", "Layout Name"]
  else if unused then rowStrokes p .error ["Status", "Layout Name"]
  else []) ++
  countStrokes p true "Total Usage" v

def scriptStrokes (v : Values) : List Stroke :=
  let p := Palette.standard
  let status := v.text "Status"
  let names := ["Status", "Script Name"]
  (if has "NOT USED" status then rowStrokes p .error names
  else if ["Server", "Debug", "Dev Playground", "Check Manually"].contains status then
    rowStrokes p .warning names
  else if status == "Scheduled For Deletion" then rowStrokes p .success names
  else []) ++
  (match (v.get? "XML Count").bind Cell.count? with
  | some n =>
    if n > 2 then [.letter "XML Count" (p.boldOf .success), .fill "XML Count" .plain] else []
  | none => []) ++
  countStrokes p (!(["Server", "Debug", "Dev Playground"].contains status)) "Total Usage" v

/-- Whether a cell holds the number zero. -/
def Cell.isZero : Cell → Bool
  | .whole n => n == 0
  | .decimal digits _ => digits == 0
  | .truth b => !b
  | _ => false

def occurrenceStrokes (v : Values) : List Stroke :=
  let p := Palette.standard
  let unused := (v.get? "Usage Count").any Cell.isZero
  (if unused then rowStrokes p .error ["Usage Count", "Table Occurrence"] else []) ++
  if v.text "Same as Base" == "No" && !unused then
    cellStrokes p .warning "Same as Base" ++ [.letter "Table Occurrence" (p.boldOf .warning)]
  else []

/-- The tone of a kind of place in the sheet of unknown references. -/
def referenceTone? : String → Option Tone
  | "Script" => some .script
  | "Custom Function" => some .customFunction
  | "Field Calc" => some .fieldCalculation
  | "Layout Object" | "Layout Field" => some .layoutObject
  | "Value List" | "Relationship" | "Other" => some .other
  | _ => none

def referenceStrokes (v : Values) : List Stroke :=
  let p := Palette.references
  let black : Font := { colour := some "000000" }
  let mild := ["To Delete", "Commented Out", "Temp/Debug"].contains (v.text "Status")
  (if !v.has "Status" then []
  else if mild then rowStrokes p .warning ["Status"]
  else [.letter "Status" (p.boldOf .error)]) ++
  (match referenceTone? (v.text "Type") with
  | some tone => if mild then [] else [.fill "Type" (p.fillOf tone)]
  | none => []) ++
  [.letter "Type" { bold := true }] ++
  (match v.get? "Error" with
  | some c =>
    if Grid.isNothing c then []
    else if mild then [.letter "Error" (p.boldOf .warning)]
    else cellStrokes p .error "Error"
  | none => []) ++
  (if v.has "Commented" then
    [.letter "Location" (if v.text "Commented" == "Yes" then p.fontOf .muted else black)]
  else []) ++
  [.letter "Context" black]

/-! ## Queries -/

/-- A cell that is expected to hold a text holds something else. -/
structure NotText where
  cell : Cell
  deriving DecidableEq, Repr

/-- How it is told that a cell holds no text. -/
def NotText.message (e : NotText) : String :=
  let kind := match e.cell with
    | .empty => "NoneType"
    | .text _ => "str"
    | .whole _ => "int"
    | .decimal _ _ => "float"
    | .truth _ => "bool"
  s!"'{kind}' object has no attribute 'strip'"

/-- The strokes on a column with missing names. -/
def missingStrokes (p : Palette) (column : String) (v : Values) : Except NotText (List Stroke) :=
  match v.get? column with
  | none => .ok []
  | some c =>
    if Grid.isNothing c then .ok []
    else
      match c with
      | .text s => .ok (if trim s != "" && s != "None" then cellStrokes p .error column else [])
      | other => .error ⟨other⟩

def queryTone? : String → Option Tone
  | "Script" => some .script
  | "Custom Function" => some .customFunction
  | "Field Calc" => some .fieldCalculation
  | "Layout Object" => some .layoutObject
  | "Other" => some .other
  | _ => none

/-- The strokes that follow from the status and the category of a query. -/
def queryHeadStrokes (p : Palette) (v : Values) : List Stroke :=
  (match v.text "Error Status" with
  | "Missing Table" => cellStrokes p .errorStrong "Error Status"
  | "Missing Field" => cellStrokes p .error "Error Status"
  | "Not Base Table" => cellStrokes p .warning "Error Status"
  | _ => []) ++
  match queryTone? (v.text "Category") with
  | some tone => [.fill "Category" (p.fillOf tone)]
  | none => []

/-- Whether a column says a word, case and blanks around it disregarded. -/
def Values.says (v : Values) (column word : String) : Bool := lower (trim (v.text column)) == word

/-- The strokes on tables, fields, query text and details. -/
def queryBodyStrokes (p : Palette) (v : Values) : List Stroke :=
  (if v.has "Table Exists" then
    if has "⚠️" (v.text "Tables") then cellStrokes p .warning "Tables"
    else if v.says "Table Exists" "no" then cellStrokes p .errorStrong "Tables"
    else [.letter "Tables" (p.fontOf .muted)]
  else []) ++
  (if v.has "Fields Exist" then
    if v.says "Fields Exist" "no" then cellStrokes p .errorStrong "Fields"
    else [.letter "Fields" (p.fontOf .muted)]
  else []) ++
  (if v.says "Commented?" "commented out" then
    [.letter "SQL Text" { p.fontOf .muted with strike := true },
     .fill "SQL Text" (p.fillOf .muted)]
  else []) ++
  if v.text "Category" == "Script" && v.has "Details" then
    .letter "Details" { bold := true } ::
      if beginsWith "Step " (v.text "Other Info") then [.letter "Other Info" { bold := true }]
      else []
  else []

def queryStrokes (v : Values) : Except NotText (List Stroke) := do
  let p := Palette.standard
  let tables ← missingStrokes p "Missing Tables" v
  let fields ← missingStrokes p "Missing Fields" v
  return queryHeadStrokes p v ++ tables ++ fields ++ queryBodyStrokes p v

/-! ## Styling a grid -/

/-- The strokes on a row of an audit's sheet. -/
def Audit.strokes (a : Audit) (v : Values) : Except NotText (List Stroke) :=
  match a with
  | functions => .ok (functionStrokes v)
  | fields => .ok (fieldStrokes v)
  | layouts => .ok (layoutStrokes v)
  | queries => queryStrokes v
  | scripts => .ok (scriptStrokes v)
  | occurrences => .ok (occurrenceStrokes v)
  | unknown => .ok (referenceStrokes v)

def Audit.styleRow (a : Audit) (columns : Register Nat) (row : List Styled) :
    Except NotText (List Styled) := do
  return (← a.strokes ⟨columns, row⟩).foldl (Stroke.apply columns) row

/-- Styles all rows of a grid but the header. -/
def Audit.style (a : Audit) (g : Grid) : Except NotText Grid :=
  match g.rows with
  | [] => .ok g
  | header :: rows => do
    return ⟨header :: (← rows.mapM (a.styleRow g.columns))⟩

end DesignAudit.Sheet
