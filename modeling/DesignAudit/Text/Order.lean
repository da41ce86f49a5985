import DesignAudit.Text.Search

/-!
# The order of texts

Texts are ordered by the codes of their characters. Sorting is stable.
-/

namespace DesignAudit.Text

/-- Sorts by a key, keeping the order of members with equal keys. -/
def sortBy {α κ : Type} [Ord κ] (key : α → κ) (xs : List α) : List α :=
  xs.mergeSort fun a b => (compare (key a) (key b)).isLE

/-- Texts in ascending order. -/
def sorted (xs : List String) : List String := sortBy id xs

/-- The distinct texts of a list in ascending order. -/
def ascending (xs : List String) : List String := sorted (distinct xs)

/-- The order in which a set of texts lists its members. It may differ from one run to the next, so
all that can be relied on is that each member is listed once. -/
class SetOrder where
  list : List String → List String
  perm (xs : List String) : (list xs).Perm (distinct xs)

/-- Sets are listed in ascending order where no other order is given. -/
instance : SetOrder where
  list := ascending
  perm xs := List.mergeSort_perm (distinct xs) _

end DesignAudit.Text
