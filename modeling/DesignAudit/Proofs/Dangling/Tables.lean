import DesignAudit.Proofs.Dangling.Owner
import DesignAudit.Proofs.FieldUse.Pairs

/-!
# Unknown tables in calculations

The audit of dangling references looks at the tables that the calculations of steps and fields name. It
tells of an unknown table exactly if such a calculation names it and the catalogue has no table of this
name, nor one that the name is an occurrence of (`exists_unknownTable_row_iff`).
-/

namespace DesignAudit.Dangling

open Markup Text Text.Pattern
open Layout (NoInfiniteBounds)

/-! ## The error and its cause -/

/-- The error about a table that a calculation names. -/
def unknownTable (table : String) : String := s!"Unknown table in calculation: \"{table}\""

/-- The catalogue has no table of a name, and none that the name is an occurrence of. -/
def Known.Lacks (k : Known) (table : String) : Prop :=
  k.catalogue.tables.has (Catalog.base k.catalogue.occurrences table) = false

instance (k : Known) (table : String) : Decidable (k.Lacks table) :=
  inferInstanceAs (Decidable (_ = _))

/-- A calculation of a step or a field. -/
inductive Audited (root c : Site) : Prop where
  | step {script step : Site} (hscript : script ∈ root.all "Script")
      (hstep : step ∈ script.all "Step") (hc : c ∈ step.all "Calculation")
  | field {table field : Site} (htable : table ∈ root.all "BaseTable")
      (hfield : field ∈ table.all "Field") (hc : field.first? "Calculation" = some c)

/-- A calculation names a table. Calculations with queries are left to another audit. -/
def NamesTable (c : Site) (table : String) : Prop :=
  ∃ t field, c.node.written? = some t ∧ has "ExecuteSQL" t = false ∧
    (table.toList, field) ∈ referencePattern.findPairs t.toList

variable {k : Known} {root c : Site} {table : String}

theorem missing?_eq_table_iff {field : String} :
    k.missing? table field = some .table ↔ k.Lacks table := by
  rw [Known.missing?, Known.Lacks]
  cases k.catalogue.tables.has (Catalog.base k.catalogue.occurrences table) with
  | false => simp
  | true =>
    simp only [Bool.not_true, Bool.false_eq_true, if_false, Bool.true_eq_false, iff_false]
    split <;> simp

theorem unknownTable_injective {table table' : String}
    (h : unknownTable table = unknownTable table') : table = table' := by
  have hlist : ∀ t : String, (unknownTable t).toList =
      "Unknown table in calculation: \"".toList ++ t.toList ++ "\"".toList := fun t => by
    rw [← String.toList_append, ← String.toList_append]
    rfl
  have heq := congrArg String.toList h
  rw [hlist, hlist] at heq
  exact String.toList_inj.mp (List.append_cancel_left (List.append_cancel_right heq))

/-- An error that begins otherwise is about something else. -/
theorem ne_unknownTable {error : String} (opening : String) (h : beginsWith opening error = true)
    (hclash : beginsWith "Unknown table in calculation: " opening = false ∧
      beginsWith opening "Unknown table in calculation: " = false) :
    error ≠ unknownTable table := by
  rintro rfl
  have hbegin : beginsWith "Unknown table in calculation: " (unknownTable table) = true :=
    beginsWith_append₂ (by decide) _ _
  rw [beginsWith_eq_false_of_clash opening h hclash] at hbegin
  cases hbegin

/-! ## Problems -/

/-- The problems of a calculation that are about a table. -/
theorem exists_calculationProblems_iff :
    (∃ p ∈ k.calculationProblems c, p.error = unknownTable table) ↔
      NamesTable c table ∧ k.Lacks table := by
  rw [Known.calculationProblems]
  split
  · rename_i hnone
    refine iff_of_false (by simp) ?_
    rintro ⟨⟨t, field, ht, hquery, -⟩, -⟩
    rw [ht, Option.filter_some, hquery] at hnone
    cases hnone
  · rename_i t ht
    obtain ⟨hwritten, hquery⟩ := Option.filter_eq_some_iff.mp ht
    rw [Bool.not_eq_true'] at hquery
    constructor
    · rintro ⟨p, hp, herror⟩
      obtain ⟨⟨name, field⟩, hpair, hfound⟩ := List.mem_filterMap.mp hp
      dsimp only at hfound
      split at hfound
      · rename_i hmissing
        obtain rfl := Option.some.inj hfound
        obtain rfl := unknownTable_injective herror
        exact ⟨⟨t, field, hwritten, hquery, by rw [String.toList_ofList]; exact hpair⟩,
          missing?_eq_table_iff.mp hmissing⟩
      · obtain rfl := Option.some.inj hfound
        exact absurd herror (ne_unknownTable "Unknown field in calculation: "
          (beginsWith_append₂ (beginsWith_append₂ (by decide) _ _) _ _) (by decide))
      · cases hfound
    · rintro ⟨⟨t', field, ht', -, hpair⟩, hlacks⟩
      obtain rfl : t = t' := Option.some.inj (hwritten.symm.trans ht')
      refine ⟨⟨unknownTable table, c.node.line, "Table referenced in calculation not found"⟩,
        List.mem_filterMap.mpr ⟨_, hpair, ?_⟩, rfl⟩
      dsimp only
      rw [String.ofList_toList, missing?_eq_table_iff.mpr hlacks]
      rfl

theorem scriptProblem_apart {details : String} {s : Site} :
    ∀ p ∈ k.scriptProblem details s, p.error ≠ unknownTable table := by
  intro p hp
  rw [Known.scriptProblem] at hp
  split at hp
  · obtain rfl := List.mem_singleton.mp hp
    exact ne_unknownTable "Unknown script: " (beginsWith_append₂ (by decide) _ _)
      (by decide)
  · cases hp

theorem layoutProblem_apart {s : Site} :
    ∀ p ∈ k.layoutProblem s, p.error ≠ unknownTable table := by
  intro p hp
  rw [Known.layoutProblem] at hp
  split at hp
  · obtain rfl := List.mem_singleton.mp hp
    exact ne_unknownTable "Unknown layout: " (beginsWith_append₂ (by decide) _ _)
      (by decide)
  · cases hp

theorem fieldProblem_apart {tableDetails fieldDetails : String} {f : Site} :
    ∀ p ∈ k.fieldProblem tableDetails fieldDetails f, p.error ≠ unknownTable table := by
  intro p hp
  rw [Known.fieldProblem] at hp
  split at hp
  · split at hp
    · obtain rfl := List.mem_singleton.mp hp
      exact ne_unknownTable "Unknown table: " (beginsWith_append₂ (by decide) _ _)
        (by decide)
    · obtain rfl := List.mem_singleton.mp hp
      exact ne_unknownTable "Unknown field: "
        (beginsWith_append₂ (beginsWith_append₂ (by decide) _ _) _ _) (by decide)
    · cases hp
  · cases hp

theorem portalProblem_apart {portal : Site} :
    ∀ p ∈ k.portalProblem portal, p.error ≠ unknownTable table := by
  intro p hp
  rw [Known.portalProblem] at hp
  split at hp
  · obtain rfl := List.mem_singleton.mp hp
    exact ne_unknownTable "Unknown portal table: " (beginsWith_append₂ (by decide) _ _) (by decide)
  · cases hp

theorem callProblems_apart : ∀ p ∈ k.callProblems c, p.error ≠ unknownTable table := by
  intro p hp
  rw [Known.callProblems] at hp
  split at hp
  · cases hp
  · obtain ⟨name, -, hfound⟩ := List.mem_filterMap.mp hp
    split at hfound
    · cases hfound
    · obtain rfl := Option.some.inj hfound
      exact ne_unknownTable "Unknown custom function: "
        (beginsWith_append₂ (by decide) _ _) (by decide)

/-- Of the problems of a step only those of its calculations are about a table in a calculation. -/
theorem mem_stepProblems_of_error {name : String} {step : Site} {p : Problem}
    (hp : p ∈ k.stepProblems name step) (herror : p.error = unknownTable table) :
    ∃ c ∈ step.all "Calculation", p ∈ k.calculationProblems c := by
  simp only [Known.stepProblems, List.mem_append] at hp
  rcases hp with ((hp | hp) | hp) | hp
  · split at hp
    · obtain ⟨s, -, hp⟩ := List.mem_flatMap.mp hp
      exact absurd herror (scriptProblem_apart p hp)
    · cases hp
  · split at hp
    · obtain ⟨s, -, hp⟩ := List.mem_flatMap.mp hp
      exact absurd herror (layoutProblem_apart p hp)
    · cases hp
  · split at hp
    · cases hp
    · obtain ⟨f, -, hp⟩ := List.mem_flatMap.mp hp
      exact absurd herror (fieldProblem_apart p hp)
  · exact List.mem_flatMap.mp hp

/-! ## The report -/

/-- What is found about a table in a calculation is found in an audited calculation. -/
theorem exists_found_iff :
    (∃ s p, Found k root s p ∧ p.error = unknownTable table) ↔
      (∃ c, Audited root c ∧ NamesTable c table) ∧ k.Lacks table := by
  constructor
  · rintro ⟨s, p, hfound, herror⟩
    have hcalculation : ∃ c, Audited root c ∧ p ∈ k.calculationProblems c := by
      rcases hfound with ⟨script, hscript, step, hstep, -, hp⟩ |
        ⟨layout, -, ⟨o, -, t, -, -, hp⟩ | ⟨o, -, t, -, -, hp⟩ | ⟨o, -, t, -, -, hp⟩⟩ |
        ⟨table, htable, field, hfield, c, hc, -, hp⟩ | ⟨f, -, c, -, -, hp⟩ | ⟨v, -, -, hp⟩ |
        ⟨r, -, pair, -, field, -, -, hp⟩
      · obtain ⟨c, hc, hp⟩ := mem_stepProblems_of_error hp herror
        exact ⟨c, .step hscript hstep hc, hp⟩
      · obtain ⟨f, -, hp⟩ := List.mem_flatMap.mp hp
        exact absurd herror (fieldProblem_apart p hp)
      · rcases List.mem_append.mp hp with hp | hp
        · obtain ⟨f, -, hp⟩ := List.mem_flatMap.mp hp
          exact absurd herror (scriptProblem_apart p hp)
        · obtain ⟨f, -, hp⟩ := List.mem_flatMap.mp hp
          exact absurd herror (scriptProblem_apart p hp)
      · obtain ⟨f, -, hp⟩ := List.mem_flatMap.mp hp
        exact absurd herror (portalProblem_apart p hp)
      · exact ⟨c, .field htable hfield (Option.mem_toList.mp hc), hp⟩
      · exact absurd herror (callProblems_apart p hp)
      · obtain ⟨f, -, hp⟩ := List.mem_flatMap.mp hp
        exact absurd herror (fieldProblem_apart p hp)
      · exact absurd herror (fieldProblem_apart p hp)
    obtain ⟨c, hc, hp⟩ := hcalculation
    obtain ⟨hnames, hlacks⟩ := exists_calculationProblems_iff.mp ⟨p, hp, herror⟩
    exact ⟨⟨c, hc, hnames⟩, hlacks⟩
  · rintro ⟨⟨c, hc, hnames⟩, hlacks⟩
    obtain ⟨p, hp, herror⟩ := exists_calculationProblems_iff.mpr ⟨hnames, hlacks⟩
    cases hc with
    | step hscript hstep hc =>
      refine ⟨_, p, .inl ⟨_, hscript, _, hstep, rfl, ?_⟩, herror⟩
      exact List.mem_append_right _ (List.mem_flatMap.mpr ⟨c, hc, hp⟩)
    | field htable hfield hc =>
      exact ⟨_, p, .inr (.inr (.inl
        ⟨_, htable, _, hfield, c, Option.mem_toList.mpr hc, rfl, hp⟩)), herror⟩

/-- **The audit tells of an unknown table** in a calculation exactly if a calculation of a step or a
field names a table that the catalogue lacks. -/
theorem exists_unknownTable_row_iff {n : Node} (hbounds : NoInfiniteBounds (Site.root n))
    (hlog : (ownAudit n).log = []) :
    (∃ row ∈ (ownAudit n).rows, ("Error", .text (unknownTable table)) ∈ row) ↔
      (∃ c, Audited (Site.root n) c ∧ NamesTable c table) ∧ (known n).Lacks table := by
  obtain ⟨rows, hrows⟩ := ownAudit_log_eq_nil_iff.mp hlog
  have hgathers := gathers_allRows (k := known n) hbounds
  rw [← exists_found_iff, ownAudit_of_ok hrows]
  constructor
  · rintro ⟨row, hrow, herror⟩
    obtain ⟨r, hr, rfl⟩ := List.mem_map.mp hrow
    obtain ⟨s, p, hfound, hmade⟩ :=
      ((hgathers.mem_iff hrows).mp (mem_arranged.mp hr)).resolve_left List.not_mem_nil
    exact ⟨s, p, hfound, by rw [← row_error hmade, error_of_mem_cells herror]⟩
  · rintro ⟨s, p, hfound, herror⟩
    obtain ⟨r, hmade⟩ := hgathers.ok_iff.mp ⟨rows, hrows⟩ s p hfound
    refine ⟨r.cells, List.mem_map_of_mem (mem_arranged.mpr
      ((hgathers.mem_iff hrows).mpr (.inr ⟨s, p, hfound, hmade⟩))), ?_⟩
    rw [← herror, ← row_error hmade]
    simp [Row.cells]

end DesignAudit.Dangling
