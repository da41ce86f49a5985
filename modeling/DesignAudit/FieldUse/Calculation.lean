import DesignAudit.FieldUse.Scope
import DesignAudit.Text.Blank
import DesignAudit.Text.Digit
import DesignAudit.Text.Name
import DesignAudit.Text.Order
import DesignAudit.Text.Pattern

/-!
# Fields in calculations

The text of a calculation is searched for fields in ten ways, one after the other: by table and
field, by field name alone within the table of the calculation, by table and field with a dot, by
the table of global values, by the markup of field references, by field ids, by name in placeholder
texts, and by merge marks. Each way adds its own uses, so a field can be found more than once.
-/

namespace DesignAudit.FieldUse

open Text Text.Pattern

/-! ## Patterns -/

/-- Pictographs that a table name may hold. -/
def tableMarks : List Nat := [0x1F30E, 0x1F9D1, 0x200D, 0x1F393, 0x1F517, 0x1F465]

def isTableName (c : Char) : Bool := isName c || tableMarks.contains c.toNat

/-- A table and a field, divided by the given text. -/
def pairPattern (divider : String) : Pattern :=
  all [group (oneOrMore isTableName), text divider, group (oneOrMore isName)]

def wholeWord (name : String) : Pattern := all [wordEdge, text name, wordEdge]

/-- A field of the table of global values. -/
def globalPattern : Pattern :=
  all [alt (word "🌎Globals") (word "Globals"), text "::", group (oneOrMore isName)]

def inTag (c : Char) : Bool := c != '>'

/-- An attribute value, which is captured. -/
def valuePattern : Pattern := group (many (· != '"'))

/-- The attributes of a field element that name table and field, as far apart as can be. -/
def chunkPattern : Pattern :=
  all [text "<Chunk", many inTag, text ">", fewest fun _ => true, text "<Field", many inTag,
    text "table=\"", valuePattern, text "\"", many inTag, text "name=\"", valuePattern, text "\""]

/-- A field element with table and name. -/
def fieldElementPattern : Pattern :=
  all [text "<Field ", fewest inTag, text "table=\"", valuePattern, text "\"", fewest inTag,
    text "name=\"", valuePattern, text "\""]

/-- A field element in a chunk that is marked as a field reference. -/
def fieldRefPattern : Pattern :=
  all [text "<Chunk type=\"FieldRef\">", fewest fun _ => true, fieldElementPattern]

def fieldIdPattern : Pattern :=
  all [text "<Field ", fewest inTag, text "id=\"",
    group (oneOrMore fun c => (decimalValue? c).isSome), text "\""]

def mergePattern : Pattern := all [text "<<", group (oneOrMore inTag), text ">>"]

def dottedFunctions : List String :=
  ["get", "let", "set", "abs", "sin", "cos", "tan", "exp", "log", "min", "max"]

/-! ## Ways to find a field -/

/-- The uses of captured pairs of a table and a field. -/
def pairUses (s : Scope) (context : String) (pairs : List (List Char × List Char)) : List Use :=
  pairs.filterMap fun (table, field) =>
    (s.nearKey? (String.ofList table) (String.ofList field)).map (⟨·, .calculation, context⟩)

section Searches

variable (s : Scope) (context : String) (cs : List Char)

/-- Fields with their tables. -/
def qualifiedUses : List Use :=
  pairUses s context ((pairPattern "::").findPairs cs)

/-- Fields of the table of the calculation, by name alone. -/
def ownUses (s : Scope) (table : Option String) (context : String) (cs : List Char) : List Use :=
  match table.filter (· ≠ "") with
  | none => []
  | some table =>
    (s.fieldsOf table).filterMap fun field =>
      if (wholeWord field).occursIn cs then some ⟨fieldKey table field, .calculation, context⟩
      else none

/-- Fields with their tables, written with a dot. -/
def dottedUses : List Use :=
  pairUses s context (((pairPattern ".").findPairs cs).filter fun (table, _) =>
    !dottedFunctions.contains (String.ofList (lowerChars table)))

/-- The names of the table of global values. -/
def globalTables : List String := ["Globals", "🌎Globals"]

/-- Fields of the table of global values. -/
def globalUses : List Use :=
  if hasPart "Globals".toList cs then
    (globalPattern.findFirst cs).filterMap fun f =>
      let field := String.ofList f
      (globalTables.find? (s.hasField · field)).map fun table =>
        ⟨fieldKey table field, .calculation, context⟩
  else []

/-- Fields that chunks of markup name. -/
def chunkUses : List Use :=
  pairUses s (context ++ " (DisplayCalculation)") (chunkPattern.findPairs cs)

def idUses : List Use :=
  let ids := (fieldIdPattern.findFirst cs).map String.ofList
  if ids.isEmpty then []
  else
    s.fields.entries.flatMap fun (table, fs) =>
      fs.entries.filterMap fun (field, id) =>
        if id.any ids.contains then
          some ⟨fieldKey table field, .calculation, context ++ " (Field ID)"⟩
        else none

/-- Fields by name in a placeholder text. -/
def placeholderUses : List Use :=
  if hasPart "PlaceholderText".toList cs || hasPart "findMode".toList cs then
    s.pairs.filterMap fun (table, field) =>
      if hasPart field.toList cs then
        some ⟨fieldKey table field, .calculation, context ++ " (PlaceholderText)"⟩
      else none
  else []

/-- Fields of chunks that are marked as field references. -/
def fieldRefUses : List Use :=
  pairUses s (context ++ " (FieldRef)") (fieldRefPattern.findPairs cs)

/-- Fields that field elements name. -/
def elementUses : List Use :=
  pairUses s (context ++ " (XML Reference)") (fieldElementPattern.findPairs cs)

/-- The names between merge marks. -/
def mergeNames (cs : List Char) : List String := (mergePattern.findFirst cs).map String.ofList

/-- Merge fields, which may belong to any table. -/
def mergeUses : List Use :=
  (mergeNames cs).flatMap (s.usesAnywhere .calculation (context ++ " (Merge Field)"))

end Searches

def calculationUses (s : Scope) (table : Option String) (context calculation : String) :
    List Use :=
  let cs := calculation.toList
  if cs.isEmpty then []
  else
    qualifiedUses s context cs ++ ownUses s table context cs ++ dottedUses s context cs ++
    globalUses s context cs ++ chunkUses s context cs ++ idUses s context cs ++
    placeholderUses s context cs ++ fieldRefUses s context cs ++ elementUses s context cs ++
    mergeUses s context cs

end DesignAudit.FieldUse
