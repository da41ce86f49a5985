import DesignAudit.Register
import DesignAudit.Sheet.Cell
import DesignAudit.Sheet.Colour

/-!
# Grids of cells with fill and font

A grid is a rectangle of cells whose first row is the header. Styling changes a row by strokes: each
fills or letters the cell of a named column, or fills the whole row. A stroke on a column that the
header does not name changes nothing.
-/

namespace DesignAudit.Sheet

/-- A cell with its fill and font. -/
structure Styled where
  value : Cell := .empty
  fill : Fill := .plain
  font : Font := {}
  deriving DecidableEq, Repr

/-- A rectangle of cells, the header first. -/
structure Grid where
  rows : List (List Styled)
  deriving Repr

namespace Grid

/-- Whether a cell's value counts as nothing. -/
def isNothing : Cell → Bool
  | .empty => true
  | .text s => s == ""
  | .whole n => n == 0
  | .decimal digits _ => digits == 0
  | .truth b => !b

def dropEmptyRows {α : Type} (rows : List (List α)) : List (List α) :=
  (rows.reverse.dropWhile List.isEmpty).reverse

def width {α : Type} (rows : List (List α)) : Nat := (rows.map List.length).foldl max 0

/-- The grid of a header and rows, filled up with empty cells. A grid has at least one cell. -/
def ofRows (header : List Cell) (rows : List (List Cell)) : Grid :=
  let rows := dropEmptyRows (header :: rows)
  if rows.isEmpty then ⟨[[{}]]⟩
  else
    let w := width rows
    ⟨rows.map fun r => r.map (fun c => { value := c }) ++ List.replicate (w - r.length) ({} : Styled)⟩

/-- The columns that the header names, by position. Of two columns of one name the last one
counts. -/
def columns (g : Grid) : Register Nat :=
  .ofList (((g.rows.headD []).zipIdx).filterMap fun (c, i) =>
    match c.value with
    | .text s => if s == "" then none else some (s, i)
    | _ => none)

end Grid

/-- One change to a row. -/
inductive Stroke where
  | fillRow (f : Fill)
  | fill (column : String) (f : Fill)
  | letter (column : String) (f : Font)
  | write (column : String) (c : Cell)
  deriving DecidableEq, Repr

/-- Changes the cell of a named column. -/
def atColumn (columns : Register Nat) (column : String) (f : Styled → Styled)
    (row : List Styled) : List Styled :=
  match columns.get? column with
  | some i => row.modify i f
  | none => row

def Stroke.apply (columns : Register Nat) (row : List Styled) : Stroke → List Styled
  | fillRow f => row.map fun c => { c with fill := f }
  | fill column f => atColumn columns column (fun c => { c with fill := f }) row
  | letter column f => atColumn columns column (fun c => { c with font := f }) row
  | write column v => atColumn columns column (fun c => { c with value := v }) row

/-- The values of a row by column. -/
structure Values where
  columns : Register Nat
  row : List Styled

/-- The value in a named column, if there is such a column. -/
def Values.get? (v : Values) (column : String) : Option Cell :=
  (v.columns.get? column).bind fun i => (v.row[i]?).map (·.value)

/-- Whether there is a column of this name. -/
def Values.has (v : Values) (column : String) : Bool := v.columns.has column

/-- The text in a named column, empty when the value is no text. -/
def Values.text (v : Values) (column : String) : String :=
  match v.get? column with
  | some (.text s) => s
  | _ => ""

end DesignAudit.Sheet
