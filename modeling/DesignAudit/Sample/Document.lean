import DesignAudit.Sample.Layout
import DesignAudit.Sample.Script
import DesignAudit.Sample.Table

/-!
# Sample reports

A sample of a given size: a design report that declares that many tables, layouts and scripts, and
in which everything refers to everything else.
-/

namespace DesignAudit.Sample

open Text

/-- The first lines of a report. -/
def opening : List String :=
  [r#"<?xml version="1.0" encoding="UTF-8"?>"#, r#"<FMPReport><File name="Test.fmp12">"#]

/-- The last lines of a report. -/
def closing : String :=
  r#"<CustomMenuSet name="MS"><CustomMenu name="M"><CustomMenuItem name="I"><Step name="Go to Layout"><Layout name="$layout"/></Step><Script name="$script"/></CustomMenuItem></CustomMenu></CustomMenuSet>
<FileOptions><DefaultLayout name="$layout"/><OnOpen><Script name="$script"/></OnOpen><OnClose><Script name="$second"/></OnClose></FileOptions><WindowTriggers><OnWindowOpen><Script name="$script"/></OnWindowOpen><OnWindowClose><Script name="$script"/></OnWindowClose></WindowTriggers>
<Trigger event="OnObjectEnter"><Script name="$script"/></Trigger>
<PrivilegeSet name="Full"><Calculation>CustFn_0(1)</Calculation></PrivilegeSet>
<Free><Script name="$script"/></Free>
</File></FMPReport>"#

def entry (tag : String) (first : Nat) (i : Nat) (name : String) : String :=
  fill [("tag", tag), ("id", toString (first + i)), ("name", name)] r#"<$tag id="$id" name="$name"/>"#

def scriptFolders (s : Scale) : String :=
  r#"<ScriptCatalog><Group name="Top"><Group name="ToDelete">"# ++
  join "" (forEach s.scripts (entry "Script" 2000)) ++ "</Group></Group><Other/></ScriptCatalog>"

def layoutFolders (s : Scale) : String :=
  r#"<LayoutCatalog><Group name="delete"><Group name="debug">"# ++
  join "" (forEach s.layouts (entry "Layout" 1000)) ++ "</Group></Group><Other/></LayoutCatalog>"

def perTable (s : Scale) (template : String) : List String :=
  forEach s.tables fun i _ => fill (tableValues s i) template

/-- Lines between two others. -/
def enclosed (tag : String) (content : List String) : List String :=
  ("<" ++ tag ++ ">") :: content ++ ["</" ++ tag ++ ">"]

def documentLines (s : Scale) : List String :=
  opening ++
  enclosed "BaseTableCatalog" (forEach s.tables fun i _ => baseTable s i) ++
  enclosed "RelationshipGraph" (perTable s graphTemplate) ++
  perTable s occurrenceTemplate ++
  perTable s relationshipTemplate ++
  [scriptFolders s, layoutFolders s] ++
  enclosed "CustomFunctionCatalog" (forEach s.functions fun i _ => customFunction s i) ++
  perTable s valueListTemplate ++
  forEach s.layouts (fun i _ => "\n" ++ layout s i) ++
  enclosed "Scripts" (forEach s.scripts fun i _ => "\n" ++ script s i) ++
  [fill [("layout", pick s.layouts 0), ("script", pick s.scripts 0), ("second", pick s.scripts 1)]
    closing]

/-- A sample with a number of entities of each kind. -/
def document (entities : Int) : String := lines (documentLines (.ofEntities entities))

end DesignAudit.Sample
