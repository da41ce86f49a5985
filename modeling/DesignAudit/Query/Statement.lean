import DesignAudit.Register
import DesignAudit.Text.Blank
import DesignAudit.Text.Digit
import DesignAudit.Text.Name
import DesignAudit.Text.Order
import DesignAudit.Text.Pattern

/-!
# Queries in a calculation

A calculation runs a query by calling `ExecuteSQL` with the query as a quoted text. From each query
the fields it names are read: those written with a table or alias in front, and those that stand
where a query has a field, which count for the main table of the query.
-/

namespace DesignAudit.Query

open Text Text.Pattern

/-- A field as a query names it: with a table, or with an alias that stands for no known table. -/
inductive FieldRef where
  | ofTable (table field : String)
  | ofAlias (nick field : String)
  deriving DecidableEq, Repr

def FieldRef.text : FieldRef → String
  | .ofTable table field => table ++ "::" ++ field
  | .ofAlias nick field => nick ++ "." ++ field

/-- What a text refers to: it is taken apart at its first double colon, or else at its first dot. A
text without either is a field of no known table. -/
def FieldRef.ofText (s : String) : Option FieldRef :=
  match cutOnce? "::" s with
  | some (table, field) => some (.ofTable table field)
  | none => (cutOnce? "." s).map fun (nick, field) => .ofAlias nick field

/-! ## Patterns -/

/-- Any number of blanks. -/
def blanks : Pattern := many isBlank

def gap : Pattern := oneOrMore isBlank

def name : Pattern := group (oneOrMore isName)

/-- A single or double quotation mark. -/
def isQuote (c : Char) : Bool := c == '"' || c == '\''

/-- A call that runs a query; the query is captured. -/
def callPattern : Pattern :=
  all [word "ExecuteSQL", blanks, text "(", blanks, one isQuote, group (many fun c => !isQuote c),
    one isQuote]

def tablePattern : Pattern := all [alt (word "FROM") (word "JOIN"), gap, name]

/-- The table that is read from. -/
def mainPattern : Pattern := all [word "FROM", gap, name]

/-- A name with another name in front. -/
def dottedPattern : Pattern := all [name, text ".", name]

/-- A joined table, with the alias given to it. -/
def joinPattern : Pattern :=
  all [word "JOIN", gap, name, alt (all [gap, word "AS", gap, name]) (group nothing)]

/-- A remark of a calculation: between `/*` and `*/`, or from `--` at the start of a line to its
end. -/
def remarkPattern : Pattern :=
  oneOf [
    all [lineStart, blanks, text "/*", fewest fun _ => true, text "*/", blanks],
    all [lineStart, blanks, text "--", fewest fun _ => true, lineEnd],
    all [text "/*", fewest fun _ => true, text "*/"]]

/-- What ends a selected item: a comma, a closing bracket, or the word that names the table. -/
def itemEnd : Pattern :=
  alt (all [blanks, one fun c => c == ',' || c == ')']) (all [gap, word "FROM"])

/-- A name that is compared with something. -/
def comparedAfter (keyword : String) : Pattern :=
  all [word keyword, gap, name, blanks, one fun c => "=<>!".toList.contains c]

/-- A name inside a summary function. -/
def summarised (function : String) (inner : Pattern) : Pattern :=
  all [word "SELECT", gap, word function, blanks, text "(", blanks, inner, name, blanks, text ")"]

/-- The places of a query at which a field stands, each with its label. -/
def fieldPlaces : List (String × Pattern) :=
  [("WHERE", comparedAfter "WHERE"),
   ("AND", comparedAfter "AND"),
   ("OR", comparedAfter "OR"),
   ("SELECT", all [word "SELECT", gap,
      group (oneOrMore fun c => !isBlank c && !",()".toList.contains c), itemEnd]),
   ("SELECT_SUM", summarised "SUM" nothing),
   ("SELECT_COUNT", summarised "COUNT" (opt (all [word "DISTINCT", gap]))),
   ("SELECT_AVG", summarised "AVG" nothing),
   ("SELECT_MAX", summarised "MAX" nothing),
   ("SELECT_MIN", summarised "MIN" nothing),
   ("SELECT_LIST", all [text ",", blanks, name, itemEnd])]

/-- The places of a query that order or group its rows. -/
def orderPlaces : List (String × Pattern) :=
  [("ORDER_BY", all [word "ORDER", gap, word "BY", gap, name]),
   ("GROUP_BY", all [word "GROUP", gap, word "BY", gap, name])]

/-- Functions, which are no aliases. -/
def functionNames : List String :=
  ["SUM", "COUNT", "AVG", "MAX", "MIN", "TRIM", "LEFT", "RIGHT"]

/-- Keywords, which are no fields. -/
def keywords : List String :=
  ["FROM", "WHERE", "SELECT", "ORDER", "GROUP", "BY", "AS", "AND", "OR", "SUM", "COUNT", "AVG",
   "MAX", "MIN", "DISTINCT", "NULL", "TRUE", "FALSE", "BETWEEN", "IN", "NOT", "IS", "LIKE",
   "EXISTS"]

/-- Whether a text consists of digits only. -/
def isNumeral (cs : List Char) : Bool := !cs.isEmpty && cs.all isDigit

/-! ## Fields of a query -/

/-- The queries that a calculation runs, in order. -/
def queries (calculation : List Char) : List (List Char) := callPattern.findFirst calculation

def hasQuery (calculation : List Char) : Bool := callPattern.occursIn calculation

/-- The tables named in a calculation, as a set lists them. -/
def tablesIn [SetOrder] (calculation : List Char) : List String :=
  SetOrder.list ((tablePattern.findFirst calculation).map String.ofList)

def mainTable? (query : List Char) : Option String :=
  (mainPattern.search query).bind fun m => m.groups.head?.map String.ofList

/-- The fields with a name in front, each with the note that is kept of it. -/
def dottedFields (query : List Char) : List (FieldRef × String) :=
  (dottedPattern.findPairs query).filterMap fun (a, f) =>
    if functionNames.contains (capitals a) then none
    else
      let nick := String.ofList a
      let field := String.ofList f
      some (.ofAlias nick field, s!"alias:{nick}.{field}")

/-- The fields of the main table, each with the note that is kept of it. -/
def placedFields (main : String) (query : List Char) : List (FieldRef × String) :=
  fieldPlaces.flatMap fun (label, pattern) =>
    (pattern.findFirst query).filterMap fun f =>
      if keywords.contains (capitals f) || isNumeral f then none
      else
        let field := String.ofList f
        some (.ofTable main field, s!"{label}_in_{main}:{field}")

/-- The fields of the main table that order or group the rows. -/
def orderingFields (main : String) (query : List Char) : List (FieldRef × String) :=
  orderPlaces.flatMap fun (label, pattern) =>
    (pattern.findFirst query).filterMap fun f =>
      if isNumeral f then none
      else
        let field := String.ofList f
        some (.ofTable main field, s!"{label}:{field}")

/-- All fields that a query with the given main table names. -/
def fieldsOf (main : String) (query : List Char) : List (FieldRef × String) :=
  dottedFields query ++ placedFields main query ++ orderingFields main query

/-- What the tables of a query are called in it. -/
def aliasesOf (main : String) (query : List Char) : Register String :=
  (joinPattern.findPairs query).foldl (fun r (table, nick) =>
    r.insert (String.ofList (if nick.isEmpty then table else nick)) (String.ofList table))
    (.ofList [(main, main)])

/-- Puts the table in place of its alias. -/
def FieldRef.resolve (aliases : Register String) : FieldRef → FieldRef
  | .ofTable table field => .ofTable table field
  | .ofAlias nick field =>
    match aliases.get? nick with
    | some table => .ofTable table field
    | none => .ofAlias nick field

/-- The fields named in a calculation, with notes on how they were found. -/
structure Extraction where
  fields : List FieldRef := []
  notes : List String := []
  deriving Repr

/-- Adds what a query names. The aliases of the query apply to all that was found so far. -/
def Extraction.add (e : Extraction) (query : List Char) : Extraction :=
  let shown := "extracted_sql: " ++ String.ofList (query.take 50) ++ "..."
  match mainTable? query with
  | none => { e with notes := e.notes ++ [shown] }
  | some main =>
    let found := fieldsOf main query
    let aliases := aliasesOf main query
    { fields := (e.fields ++ found.map (·.1)).map (·.resolve aliases)
      notes := e.notes ++ [shown, s!"main_table: {main}"] ++ found.map (·.2) }

/-- The fields named in the queries of a calculation. -/
def extract (calculation : List Char) : Extraction :=
  match queries calculation with
  | [] => { notes := ["No ExecuteSQL function calls found"] }
  | qs => qs.foldl Extraction.add {}

/-- Whether every query call of a calculation stands in a remark. -/
def isCommented (calculation : List Char) : Bool :=
  !hasPart "ExecuteSQL".toList (remarkPattern.erase calculation)

end DesignAudit.Query
