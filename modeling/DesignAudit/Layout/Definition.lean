import DesignAudit.Catalog.Folder
import DesignAudit.Register

/-!
# Definitions of layouts

A layout element outside of the layout catalogue defines a layout, unless it stands where a layout
is only referred to or bears the name of a folder. The catalogue tells the folder of each layout by
its id.
-/

namespace DesignAudit.Layout

open Markup Catalog Text

/-- The first layout catalogue of a document. -/
def catalogue? (root : Site) : Option Node := (root.first? "LayoutCatalog").map (·.node)

def folderNames (catalogue : Option Node) : List String :=
  match catalogue with
  | some c => foldersIn "Layout" c.children
  | none => []

/-- The folder of each layout id in a catalogue. -/
def folderPaths (catalogue : Option Node) : Register String :=
  match catalogue with
  | some c => .ofList ((itemsIn "Layout" [] c.children).filterMap fun (n, path) =>
      (n.named? "id").map (·, Catalog.pathText path))
  | none => .empty

def nameOf (s : Site) : String := s.node.attrD "name" "Unknown Layout"

/-- Whether one of the twenty nearest elements around a place is a layout catalogue. -/
def isCatalogued (s : Site) : Bool := (s.above.take 20).any (·.tag == "LayoutCatalog")

/-- Whether an element stands where a layout is referred to. -/
def isReference (s : Site) : Bool :=
  s.parentTag?.any ["Step", "Parameter", "ButtonObj", "Relationship"].contains

/-- Whether a layout element defines a layout, given the names of the folders. -/
def isDefinition (folders : List String) (s : Site) : Bool :=
  !folders.contains (nameOf s) && !isCatalogued s && !isReference s

/-- The layouts that a document defines, each with its folder. -/
def definitions (root : Site) : Register String :=
  let catalogue := catalogue? root
  let paths := folderPaths catalogue
  .ofList (((root.all "Layout").filter (isDefinition (folderNames catalogue))).map fun s =>
    (nameOf s, paths.getD (s.node.attr "id") "Top Level"))

end DesignAudit.Layout
