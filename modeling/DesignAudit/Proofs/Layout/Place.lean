import DesignAudit.Layout.Place
import DesignAudit.Proofs.Markup.Below
import DesignAudit.Proofs.Traversal

/-!
# When the place of an object is known

A distance that does not read as a number, or reads as the undefined value, leaves a place unknown but
is no fault. The place of an object is told in any case, unless a distance is infinite.
-/

namespace DesignAudit.Layout

open Markup Number Traversal

/-- No distance of a document is infinite. -/
def NoInfiniteBounds (root : Site) : Prop :=
  ∀ b ∈ root.all "Bounds", ∀ key ∈ ["top", "left"], ∀ value ∈ b.node.attr? key,
    ∀ negative, real? value ≠ some (.infinite negative)

instance (root : Site) : Decidable (NoInfiniteBounds root) :=
  inferInstanceAs (Decidable (∀ b ∈ root.all "Bounds", ∀ key ∈ ["top", "left"],
    ∀ value ∈ b.node.attr? key, ∀ negative, real? value ≠ some (.infinite negative)))

theorem distance_ne_infinite {s : String} (h : ∀ negative, real? s ≠ some (.infinite negative)) :
    distance s ≠ .error .infiniteCoordinate := by
  rw [distance]
  split
  · simp
  · simp
  · rename_i negative hreal
    exact absurd hreal (h negative)
  · simp

theorem distance_attrD_ne_infinite {root b : Site} (h : NoInfiniteBounds root)
    (hb : b ∈ root.all "Bounds") {key : String} (hkey : key ∈ ["top", "left"]) :
    distance (b.node.attrD key "0") ≠ .error .infiniteCoordinate := by
  rw [Node.attrD]
  cases hvalue : b.node.attr? key with
  | none => decide
  | some value => exact distance_ne_infinite (h b hb key hkey value hvalue)

theorem exists_corner?_eq_ok {root b : Site} (h : NoInfiniteBounds root)
    (hb : b ∈ root.all "Bounds") : ∃ c, corner? b.node = .ok c := by
  have htop := distance_attrD_ne_infinite h hb (by decide : "top" ∈ ["top", "left"])
  have hleft := distance_attrD_ne_infinite h hb (by decide : "left" ∈ ["top", "left"])
  have hcorner : corner b.node ≠ .error .infiniteCoordinate := by
    intro hinfinite
    rcases bind_eq_error_iff.mp hinfinite with htop' | ⟨top, -, hrest⟩
    · exact htop htop'
    · rcases bind_eq_error_iff.mp hrest with hleft' | ⟨left, -, hnone⟩
      · exact hleft hleft'
      · cases hnone
  rw [corner?]
  split
  · exact ⟨_, rfl⟩
  · rename_i hinfinite
    exact absurd hinfinite hcorner
  · exact ⟨_, rfl⟩

theorem bounds_mem {root object b : Site} (hobject : object ∈ root.below)
    (hb : object.first? "Bounds" = some b) : b ∈ root.all "Bounds" := by
  obtain ⟨hbelow, htag⟩ := Site.mem_below_of_first? hb
  exact Site.mem_all.mpr ⟨Site.below_trans hobject hbelow, htag⟩

/-- The place of an object is told unless a distance is infinite. -/
theorem exists_positionText_eq_ok {root object : Site} (h : NoInfiniteBounds root)
    (hobject : object ∈ root.below) : ∃ text, positionText object = .ok text := by
  rw [positionText]
  cases hb : object.first? "Bounds" with
  | none => exact ⟨"", rfl⟩
  | some b => exact exists_bind_eq_ok (exists_corner?_eq_ok h (bounds_mem hobject hb)) fun _ => ⟨_, rfl⟩

end DesignAudit.Layout
