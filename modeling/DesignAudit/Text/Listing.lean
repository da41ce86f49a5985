import DesignAudit.Text.Search

/-!
# Short lists

A cell shows at most three of the places it lists.
-/

namespace DesignAudit.Text

/-- The first three of the distinct texts as lines, and how many more there are. -/
def shortList (xs : List String) : String :=
  let xs := distinct xs
  if xs.length ≤ 3 then lines xs
  else lines (xs.take 3 ++ [s!"...and {xs.length - 3} more"])

end DesignAudit.Text
