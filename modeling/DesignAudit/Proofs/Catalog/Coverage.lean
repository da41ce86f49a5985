import DesignAudit.Catalog.Full
import DesignAudit.Proofs.Register

/-!
# What the catalogue covers

The scripts and layouts of the catalogue are read from the catalogues of the report first, and then
from all other elements of the kind, which are added under their names without replacing any
(`has_withOthers`). In the end every element of the kind that has a name is covered, and a reference
covers itself (`scripts_has`, `layouts_has`).
-/

namespace DesignAudit.Catalog

open Markup

theorem has_addOther (r : Register Placed) (s : Site) (name : String) :
    (addOther r s).has name = true ↔
      r.has name = true ∨ s.node.named? "name" = some name := by
  rw [addOther]
  cases hname : s.node.named? "name" with
  | none => simp
  | some n =>
    by_cases htaken : r.has n = true
    · simp only [htaken, if_true, Option.some.injEq]
      constructor
      · exact Or.inl
      · rintro (h | rfl)
        · exact h
        · exact htaken
    · simp only [if_neg htaken, Register.has_insert, Bool.or_eq_true, beq_iff_eq,
        Option.some.injEq]
      rw [or_comm, @eq_comm _ name n]

/-- Adding the other elements of a kind adds exactly their names. -/
theorem has_withOthers (kind : String) (root : Site) (items : Register Placed) (name : String) :
    (withOthers kind root items).has name = true ↔
      items.has name = true ∨ ∃ s ∈ root.all kind, s.node.named? "name" = some name := by
  rw [withOthers, or_comm]
  exact Register.has_foldl (fun s => s.node.named? "name")
    (fun r s name => (has_addOther r s name).trans or_comm) _ _ _

theorem scripts_has {root s : Site} {name : String} (hs : s ∈ root.all "Script")
    (hname : s.node.named? "name" = some name) : (build root).scripts.has name = true :=
  (has_withOthers _ _ _ _).mpr (.inr ⟨s, hs, hname⟩)

theorem layouts_has {root s : Site} {name : String} (hs : s ∈ root.all "Layout")
    (hname : s.node.named? "name" = some name) : (build root).layouts.has name = true :=
  (has_withOthers _ _ _ _).mpr (.inr ⟨s, hs, hname⟩)

end DesignAudit.Catalog
