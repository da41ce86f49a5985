import DesignAudit.Proofs.Markup.Within

/-!
# The nearest node around a place

`Spans t x` says that `t` is the node `x` or lies around it, and `IsNearest p x t` that `t` is the
nearest such node with a property. Going down from a node to a child, the child is the nearest one if
it has the property, and otherwise nothing changes (`isNearest_self_iff`, `isNearest_child_iff`). What
is handed down from a node to its children is therefore known by an induction from the root
(`descent_induction`).
-/

namespace DesignAudit.Markup.Site

variable {p : Site → Prop} {root s c t u x : Site}

/-- A node spans itself and all that lies below it. -/
def Spans (t x : Site) : Prop := x = t ∨ x ∈ t.below

theorem Spans.antisymm (htx : Spans t x) (hxt : Spans x t) : t = x := by
  rcases htx with rfl | htx
  · rfl
  · rcases hxt with rfl | hxt
    · rfl
    · exact absurd (sizeOf_lt_of_mem_below htx) (Nat.lt_asymm (sizeOf_lt_of_mem_below hxt))

theorem spans_root_iff (hroot : root.above = []) : Spans u root ↔ u = root := by
  constructor
  · rintro (rfl | h)
    · rfl
    · exact absurd hroot (above_ne_nil_of_mem_below h)
  · rintro rfl
    exact .inl rfl

theorem spans_child_iff (hc : c ∈ s.children) : Spans u c ↔ u = c ∨ Spans u s := by
  constructor
  · rintro (rfl | h)
    · exact .inl rfl
    · exact .inr ((eq_or_mem_below_of_mem_children hc h).imp_left Eq.symm)
  · rintro (rfl | rfl | h)
    · exact .inl rfl
    · exact .inr (mem_below_of_mem_children hc)
    · exact .inr (below_trans h (mem_below_of_mem_children hc))

/-- Among a node and those around it, one with a property that all others with it lie around. -/
structure IsNearest (p : Site → Prop) (x t : Site) : Prop where
  spans : Spans t x
  has : p t
  nearest : ∀ u, Spans u x → p u → Spans u t

theorem IsNearest.unique (ht : IsNearest p x t) (hu : IsNearest p x u) : t = u :=
  Spans.antisymm (hu.nearest t ht.spans ht.has) (ht.nearest u hu.spans hu.has)

theorem isNearest_self (hx : p x) : IsNearest p x x := ⟨.inl rfl, hx, fun _ hu _ => hu⟩

theorem isNearest_self_iff (hx : p x) : IsNearest p x t ↔ t = x := by
  constructor
  · intro h
    exact h.unique (isNearest_self hx)
  · rintro rfl
    exact isNearest_self hx

/-- A child without the property has the same nearest node as its parent. -/
theorem isNearest_child_iff (hc : c ∈ s.children) (hnot : ¬ p c) :
    IsNearest p c t ↔ IsNearest p s t := by
  have hspans : ∀ {u}, p u → (Spans u c ↔ Spans u s) := by
    intro u hu
    rw [spans_child_iff hc]
    refine or_iff_right ?_
    rintro rfl
    exact hnot hu
  constructor
  · intro h
    exact ⟨(hspans h.has).mp h.spans, h.has, fun u hus hu => h.nearest u ((hspans hu).mpr hus) hu⟩
  · intro h
    exact ⟨(hspans h.has).mpr h.spans, h.has, fun u huc hu => h.nearest u ((hspans hu).mp huc) hu⟩

theorem isNearest_root_iff (hroot : root.above = []) : IsNearest p root t ↔ t = root ∧ p root := by
  constructor
  · intro h
    obtain rfl := (spans_root_iff hroot).mp h.spans
    exact ⟨rfl, h.has⟩
  · rintro ⟨rfl, h⟩
    exact isNearest_self h

/-- What holds of a node, and of each child of a node below it for which it holds, holds of all that
lies below. -/
theorem descent_induction {motive : Site → Prop} (start : motive s)
    (child : ∀ t c, c ∈ t.children → motive t → motive c) (hx : Spans s x) : motive x := by
  rcases hx with rfl | hx
  · exact start
  · induction mem_below_iff.mp hx with
    | @child s c hc => exact child s c hc start
    | @step s c t hc hct ih => exact ih (child s c hc start) (mem_below_iff.mpr hct)

/-- A node with the property around a place makes that there is a nearest one. -/
theorem exists_isNearest (hux : Spans u x) (hu : p u) : ∃ t, IsNearest p x t := by
  refine descent_induction (motive := fun x => ∃ t, IsNearest p x t) ⟨u, isNearest_self hu⟩ ?_ hux
  rintro s c hc ⟨t, ht⟩
  by_cases hp : p c
  · exact ⟨c, isNearest_self hp⟩
  · exact ⟨t, (isNearest_child_iff hc hp).mpr ht⟩

end DesignAudit.Markup.Site
