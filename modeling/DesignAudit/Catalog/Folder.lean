import DesignAudit.Markup.Node
import DesignAudit.Text.Search

/-!
# Folders of a catalogue

Scripts and layouts are kept in catalogues, in folders that may lie in one another. A folder without
a name hides what it holds. Other elements are passed through.
-/

namespace DesignAudit.Catalog

open Markup Text

mutual

/-- The items of a kind in a part of a catalogue, each with the names of the folders around it,
outermost first. -/
def itemsOf (kind : String) (path : List String) : Node → List (Node × List String)
  | .mk k tag attributes text line children =>
    let n := Node.mk k tag attributes text line children
    if tag == "Group" then
      if n.attr "name" == "" then [] else itemsIn kind (path ++ [n.attr "name"]) children
    else if tag == kind then [(n, path)]
    else itemsIn kind path children

/-- The items of a kind in several parts of a catalogue. -/
def itemsIn (kind : String) (path : List String) : List Node → List (Node × List String)
  | [] => []
  | n :: rest => itemsOf kind path n ++ itemsIn kind path rest

end

mutual

/-- The names of the folders in a part of a catalogue. -/
def foldersOf (kind : String) : Node → List String
  | .mk k tag attributes text line children =>
    let name := (Node.mk k tag attributes text line children).attr "name"
    if tag == "Group" then
      if name == "" then [] else name :: foldersIn kind children
    else if tag == kind then []
    else foldersIn kind children

/-- The names of the folders in several parts of a catalogue. -/
def foldersIn (kind : String) : List Node → List String
  | [] => []
  | n :: rest => foldersOf kind n ++ foldersIn kind rest

end

/-- How the place of an item is written. -/
def pathText (path : List String) : String :=
  if path.isEmpty then "Top Level" else join " > " path

end DesignAudit.Catalog
