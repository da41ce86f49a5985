import DesignAudit.Number.Reading
import DesignAudit.Text.Pattern
import DesignAudit.Text.Search

/-!
# Titles of sheets

A title has at least one character and none of the forbidden ones. Titles that differ in case only
count as the same; a second sheet of that title gets a number.
-/

namespace DesignAudit.Book

open Text Text.Pattern

/-- The characters that no title may have. -/
def forbidden : List Char := ['\\', '*', '?', ':', '/', '[', ']']

/-- The title that a new sheet bears before it is given one. -/
def untitled : String := "Sheet"

def numberedPattern (title : String) : Pattern :=
  all [word title, group (many isDigit), opt (text ",")]

/-- The numbers that follow a title in the titles taken, and whether the title is found in them. -/
def numbersTaken (taken : List String) (title : String) : List (Option Int) :=
  ((numberedPattern title).findFirst (join "," taken).toList).map fun ds =>
    Number.whole? (String.ofList ds)

/-- A title that is not taken: the given one, or the given one with the next number. -/
def freeTitle (taken : List String) (title : String) : String :=
  if taken.any fun t => lower t == lower title then
    match numbersTaken taken title with
    | [] => title
    | numbers => title ++ toString ((numbers.filterMap id).foldl max 0 + 1)
  else title

end DesignAudit.Book
