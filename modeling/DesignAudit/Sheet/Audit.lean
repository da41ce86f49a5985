import DesignAudit.Sheet.Colour

/-!
# The seven audits and their sheets

Each audit fills one sheet of the report. This module says what the sheet is called, where it
stands, and how wide its columns are.
-/

namespace DesignAudit.Sheet

/-- The audits of a design report. -/
inductive Audit where
  | functions
  | fields
  | layouts
  | queries
  | scripts
  | occurrences
  | unknown
  deriving DecidableEq, Repr

namespace Audit

def all : List Audit := [functions, fields, layouts, queries, scripts, occurrences, unknown]

def name : Audit → String
  | functions => "CustomFunctions"
  | fields => "Fields"
  | layouts => "Layouts"
  | queries => "SQL"
  | scripts => "Scripts"
  | occurrences => "Tables"
  | unknown => "Unknown"

def ofName? (s : String) : Option Audit := all.find? (·.name == s)

def title : Audit → String
  | functions => "Custom Function Usage"
  | fields => "Field Usage"
  | layouts => "Layout Usage"
  | queries => "SQL Usage"
  | scripts => "Script Usage"
  | occurrences => "Table Occurrences"
  | unknown => "Unknown References"

/-- The place of the audit's sheet; lower ones come first. -/
def order : Audit → Nat
  | layouts => 1
  | scripts => 2
  | functions => 3
  | fields => 4
  | queries => 5
  | unknown => 7
  | occurrences => 10

/-- The colours an audit's sheet is styled with. -/
def palette : Audit → Palette
  | functions => .functions
  | unknown => .references
  | _ => .standard

/-- The widths of an audit's columns, in pixels. A debugging run has one more column for
scripts. -/
def widths (debug : Bool) : Audit → List (String × Nat)
  | functions => [("Custom Function", 200), ("Usage Count", 80), ("Used In", 400), ("Status", 85)]
  | fields =>
    [("Table Name", 175), ("Field Name", 175), ("Status", 85), ("Usage Count", 80),
     ("XML Count", 65), ("Used in Layouts", 250), ("Used in Scripts", 250),
     ("Used in Calculations", 250), ("Used in SQL", 250), ("Used in Other", 200)]
  | layouts =>
    [("Layout Name", 250), ("Path", 300), ("Total Usage", 80), ("Status", 85),
     ("Used in Scripts", 250), ("Used in Buttons", 250), ("Used in Triggers", 250),
     ("Used in Other", 200)]
  | queries =>
    [("Error Status", 100), ("Category", 55), ("Details", 175), ("Other Info", 170),
     ("Tables", 150), ("Fields", 245), ("SQL Text", 280), ("XML Line", 50),
     ("Field from XML", 175), ("Commented?", 100), ("Raw Field Matches", 200),
     ("Missing Tables", 150), ("Table Exists", 80), ("Missing Fields", 245), ("Fields Exist", 80),
     ("Base Tables", 175), ("Debug Info", 200), ("XML Path", 200), ("Field Name", 150),
     ("Errors", 150), ("Base Table Name (Debug)", 200), ("BaseTable Match Tables (Debug)", 200)]
  | scripts =>
    [("Script Name", 250), ("Total Usage", 80), ("Status", 85), ("XML Count", 65),
     ("Called from Scripts", 250), ("Called from Buttons", 250), ("Called from Triggers", 250),
     ("Called from Menus", 200), ("Called from Other", 200), ("Debug Info", 85)] ++
    if debug then [("XML Occurrences (Debug)", 400)] else []
  | occurrences =>
    [("Table Occurrence", 200), ("Base Table", 200), ("Same as Base", 70), ("XML Occurrences", 70),
     ("Usage Count", 70), ("Usage Locations", 400), ("Relationships", 300)]
  | unknown =>
    [("Status", 100), ("Type", 100), ("Context", 150), ("Location", 400), ("Commented", 50),
     ("Error", 300), ("XML Line", 50), ("Details", 200)]

end Audit

end DesignAudit.Sheet
