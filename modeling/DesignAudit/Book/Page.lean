import DesignAudit.Book.Title
import DesignAudit.Number.Decimal
import DesignAudit.Sheet.Style

/-!
# Pages of a workbook

A page holds the cells of one sheet as they are read back from the file. It is written first, cell by
cell, header before columns, and laid out and styled afterwards. Writing stops at the first text that
has a character no cell can hold; what was written before stays.
-/

namespace DesignAudit.Book

open Number Sheet Text

/-- One sheet of a workbook. -/
structure Page where
  title : String
  cells : List (List Styled) := []
  /-- Whether the header stays in view. -/
  frozen : Bool := false
  widths : List Binary
  heights : List (Option Nat)
  /-- Whether every cell shows its text from the top, in several lines if need be. -/
  aligned : Bool

/-- Why a workbook cannot be written. -/
inductive Fault where
  | noTitle
  | titleCharacter (c : Char)
  | illegalCharacter
  | noSheet
  deriving DecidableEq, Repr

def Fault.message : Fault → String
  | .noTitle => "Title must have at least one character"
  | .titleCharacter c => s!"Invalid character {c} found in sheet title"
  | .illegalCharacter => ""
  | .noSheet => "At least one sheet must be visible"

/-! ## Writing -/

/-- The characters that no cell can hold. -/
def isIllegal (c : Char) : Bool :=
  let n := c.toNat
  Nat.ble n 8 || n == 11 || n == 12 || (Nat.ble 14 n && Nat.ble n 31)

/-- The most characters a cell can hold. -/
def cellLimit : Nat := 32767

/-- What a cell holds after it has been written; `none` if it cannot be. -/
def written? : Cell → Option Cell
  | .text s =>
    let s := keep cellLimit s
    if s.toList.any isIllegal then none else some (if s == "" then .empty else .text s)
  | .decimal digits places =>
    let unit := Int.pow 10 places
    if digits % unit == 0 then some (.whole (digits / unit))
    else some (.decimal digits places)
  | c => some c

/-- A page with the given cells as they stand in a new file. -/
def plainPage (title : String) (cells : List (List Styled)) : Page :=
  { title, cells
    widths := List.replicate (max 1 (Grid.width cells)) (.ofInt 13)
    heights := List.replicate (max 1 cells.length) none
    aligned := cells.isEmpty }

/-- The columns of rows, in the order in which they first appear. -/
def columnsOf (rows : List Row) : List String :=
  rows.foldl (fun seen r => seen ++ (r.map (·.1)).filter fun c => !seen.contains c) []

/-- The longest beginning of a list on which `f` succeeds, and whether it is the whole list. -/
def writtenPart {α β : Type} (f : α → Option β) : List α → List β × Bool
  | [] => ([], true)
  | a :: rest =>
    match f a with
    | none => ([], false)
    | some b =>
      let (bs, whole) := writtenPart f rest
      (b :: bs, whole)

/-- The columns as far as they are written, and whether all are. -/
def writtenColumns : List (List Cell) → List (List Cell) × Bool
  | [] => ([], true)
  | c :: rest =>
    match writtenPart written? c with
    | (cells, false) => ([cells], false)
    | (cells, true) =>
      let (more, whole) := writtenColumns rest
      (cells :: more, whole)

/-- A header cell as it is first written. -/
def headerCell (c : Cell) : Styled := { value := c, font := { bold := true } }

/-- The rows of columns, some of which may be shorter than others. -/
def rowsOf (width : Nat) (columns : List (List Cell)) : List (List Styled) :=
  let height := Grid.width columns
  (List.range height).map fun i =>
    (List.range width).map fun j => { value := ((columns[j]?).bind (·[i]?)).getD .empty }

/-- Writes the cells of a page: what is written, and whether it is all. -/
def writeCells (rows : List Row) : List (List Styled) × Bool :=
  let names := columnsOf rows
  if names.isEmpty then ([], true)
  else
    match writtenPart written? (names.map Cell.text) with
    | (header, false) => (if header.isEmpty then [] else [header.map headerCell], false)
    | (header, true) =>
      let columns := names.map fun n => rows.map fun r => (r.lookup n).getD .empty
      let (columns, whole) := writtenColumns columns
      (header.map headerCell :: rowsOf names.length columns, whole)

/-- Writes one page after others: the page, and the fault that ended it. -/
def writePage (taken : List String) (title : String) (rows : List Row) : Page × Option Fault :=
  let blank := freeTitle taken untitled
  if title == "" then (plainPage blank [], some .noTitle)
  else
    match title.toList.find? forbidden.contains with
    | some c => (plainPage blank [], some (.titleCharacter c))
    | none =>
      let title := if title == blank then title else freeTitle (taken ++ [blank]) title
      let (cells, whole) := writeCells rows
      (plainPage title cells, if whole then none else some .illegalCharacter)

/-- Writes pages after those in `done`, up to the first fault. -/
def writeFrom (done : List Page) : List (String × List Row) → List Page × Option Fault
  | [] => (done, if done.isEmpty then some .noSheet else none)
  | (title, rows) :: rest =>
    match writePage (done.map Page.title) title rows with
    | (page, none) => writeFrom (done ++ [page]) rest
    | (page, some fault) => (done ++ [page], some fault)

/-- Writes a workbook: the pages written, and the fault that ended the writing. -/
def write (sheets : List (String × List Row)) : List Page × Option Fault := writeFrom [] sheets

/-! ## Layout -/

/-- What is known about the layout of a sheet: the widths of its columns in pixels, and how its rows
are styled. -/
structure Format where
  widths : List (String × Binary) := []
  style : Grid → Except NotText Grid := .ok

/-- The width of a column that is not named. -/
def widthOf (f : Format) (header : Cell) : Binary :=
  let named := match header with
    | .text s => f.widths.lookup s
    | _ => none
  match named with
  | some w =>
    -- Seven pixels make one unit; a width of nothing leaves the usual one.
    let units := (w.div (.ofInt 7)).getD w
    if units.eq .zero then .ofInt 13 else units
  | none => .ofInt (if header == .text "SQL Text" then 40 else 20)

def rowHeight : Nat := 30

/-- Rows filled up to a header and one row of findings at least. -/
def filledUp (cells : List (List Styled)) : List (List Styled) :=
  match cells with
  | [] => [[{}], [{}]]
  | [header] => [header, header.map fun _ => {}]
  | rows => rows

def headed (c : Styled) : Styled :=
  { c with fill := Palette.standard.fillOf .header, font := Palette.standard.boldOf .header }

/-- Lays out and styles a page. -/
def Page.format (f : Format) (p : Page) : Except NotText Page := do
  let rows := filledUp p.cells
  let header := rows.headD []
  let grid ← f.style ⟨header.map headed :: rows.drop 1⟩
  return { title := p.title, cells := grid.rows, frozen := true
           widths := header.map fun c => widthOf f c.value
           heights := none :: (rows.drop 1).map fun _ => some rowHeight
           aligned := true }

end DesignAudit.Book
