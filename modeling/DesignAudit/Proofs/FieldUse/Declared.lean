import DesignAudit.Proofs.Catalog.Consistency
import DesignAudit.Proofs.FieldUse.Completeness

/-!
# Fields that a table has without declaring them

A report declares a field as a child of a base table, in a field catalogue that is a child of one,
or in a field catalogue that names the table. The catalogue takes every field element inside a base
table for a field of that table, however deep it stands, and so also one that a calculation of the
table refers to. `hasField_iff_declares_or_mentions` says exactly which fields a table gets, and
`only_declared_iff` when these are the declared ones only, in the catalogue and in the report on
fields.
-/

namespace DesignAudit.FieldUse

open Catalog Layout Markup

/-! ## Declared and mentioned -/

/-- A field of a name stands in a base table of a name, at one of the places that `places` gives. -/
def StandsAmong (places : Site → List Site) (root : Site) (table field : String) : Prop :=
  ∃ t ∈ root.all "BaseTable", t.node.named? "name" = some table ∧
    ∃ f ∈ places t, f.node.named? "name" = some field

/-- A field catalogue has a field that says which table it belongs to. -/
def Assigned (occurrences : Register String) (root : Site) (table field : String) : Prop :=
  ∃ f ∈ root.allPath "FieldCatalog" ["Field"], f.node.named? "name" = some field ∧
    (f.node.named? "table").map (base occurrences) = some table

def DeclaresField (occurrences : Register String) (root : Site) (table field : String) : Prop :=
  StandsAmong (·.down ["Field"]) root table field ∨
    StandsAmong (·.down ["FieldCatalog", "Field"]) root table field ∨
    Assigned occurrences root table field

/-- A field is mentioned somewhere inside a base table, be it declared there or not. -/
def MentionsField (root : Site) (table field : String) : Prop :=
  StandsAmong (·.all "Field") root table field

instance (places : Site → List Site) (root : Site) (table field : String) :
    Decidable (StandsAmong places root table field) :=
  inferInstanceAs (Decidable (∃ _ ∈ _, _))

instance (occurrences : Register String) (root : Site) (table field : String) :
    Decidable (Assigned occurrences root table field) :=
  inferInstanceAs (Decidable (∃ _ ∈ _, _))

instance (occurrences : Register String) (root : Site) (table field : String) :
    Decidable (DeclaresField occurrences root table field) :=
  inferInstanceAs (Decidable (_ ∨ _ ∨ _))

variable {root : Site} {field table : String}

theorem mem_fieldsInside_iff {t : Site} :
    (∃ f ∈ fieldsInside t, f.name = field) ↔
      ∃ f ∈ t.all "Field", f.node.named? "name" = some field := by
  constructor
  · rintro ⟨f, hf, rfl⟩
    obtain ⟨s, hs, hf⟩ := List.mem_filterMap.mp hf
    obtain ⟨name, hname, rfl⟩ := Option.map_eq_some_iff.mp hf
    exact ⟨s, hs, hname⟩
  · rintro ⟨s, hs, hname⟩
    refine ⟨Field.ofNode field s.node, List.mem_filterMap.mpr ⟨s, hs, ?_⟩, rfl⟩
    rw [hname, Option.map_some]

/-- The fields inside base tables are those that are mentioned there. -/
theorem mem_fieldsInTables_iff_mentions :
    (∃ f, (table, f) ∈ fieldsInTables root ∧ f.name = field) ↔ MentionsField root table field := by
  simp only [mem_fieldsInTables_iff]
  constructor
  · rintro ⟨f, ⟨t, ht, hname, hf⟩, hfield⟩
    exact ⟨t, ht, hname, mem_fieldsInside_iff.mp ⟨f, hf, hfield⟩⟩
  · rintro ⟨t, ht, hname, hinside⟩
    obtain ⟨f, hf, hfield⟩ := mem_fieldsInside_iff.mpr hinside
    exact ⟨f, ⟨t, ht, hname, hf⟩, hfield⟩

theorem mem_fieldsWithTable_iff_assigned {occurrences : Register String} :
    (∃ f, (table, f) ∈ (fieldsWithTable root).map (fun d => (base occurrences d.1, d.2)) ∧
      f.name = field) ↔ Assigned occurrences root table field := by
  constructor
  · rintro ⟨f, hf, rfl⟩
    obtain ⟨⟨written, g⟩, hd, heq⟩ := List.mem_map.mp hf
    obtain ⟨rfl, rfl⟩ := Prod.mk.inj heq
    obtain ⟨s, hs, hd⟩ := List.mem_filterMap.mp hd
    split at hd
    · rename_i name table hname htable
      obtain ⟨rfl, rfl⟩ := Prod.mk.inj (Option.some.inj hd)
      exact ⟨s, hs, hname, by rw [htable, Option.map_some]⟩
    · cases hd
  · rintro ⟨s, hs, hname, htable⟩
    obtain ⟨written, hwritten, rfl⟩ := Option.map_eq_some_iff.mp htable
    have hd : (written, Field.ofNode field s.node) ∈ fieldsWithTable root :=
      List.mem_filterMap.mpr ⟨s, hs, by rw [hname, hwritten]⟩
    exact ⟨Field.ofNode field s.node, List.mem_map.mpr ⟨_, hd, rfl⟩, rfl⟩

/-- Both places where a base table declares its fields lie inside the table. -/
theorem mentions_of_standsIn {places : Site → List Site}
    (hplaces : ∀ t, ∀ f ∈ places t, f ∈ t.all "Field") (h : StandsAmong places root table field) :
    MentionsField root table field := by
  obtain ⟨t, ht, hname, f, hf, hfield⟩ := h
  exact ⟨t, ht, hname, f, hplaces t f hf, hfield⟩

/-- **The fields of a table** are those that are declared for it and those that are mentioned inside
it. -/
theorem hasField_iff_declares_or_mentions {occurrences : Register String} :
    (fieldsByTable occurrences root).hasField table field = true ↔
      DeclaresField occurrences root table field ∨ MentionsField root table field := by
  rw [hasField_fieldsByTable_iff]
  simp only [mem_fieldDeclarations_iff_before, declarationsBeforeCatalogues, List.mem_append,
    or_and_right, exists_or, mem_fieldsInTables_iff_mentions, mem_fieldsWithTable_iff_assigned]
  constructor
  · rintro (h | h)
    · exact .inr h
    · exact .inl (.inr (.inr h))
  · rintro ((h | h | h) | h)
    · exact .inl (mentions_of_standsIn (fun _ _ => Site.mem_all_of_mem_down []) h)
    · exact .inl (mentions_of_standsIn (fun _ _ => Site.mem_all_of_mem_down ["FieldCatalog"]) h)
    · exact .inr h
    · exact .inl h

/-! ## The catalogue and the report -/

/-- The rows of an audit that completes name the declared and the mentioned fields. -/
theorem rows_iff_declares_or_mentions {raw : String} {n : Node} (hread : read raw = .ok (some n))
    (hbounds : NoInfiniteBounds (Site.root n)) :
    ∃ rows : List Row, (audit raw).rows = rows.map Row.cells ∧
      ∀ table field, (table, field) ∈ rows.map (fun r => (r.table, r.field)) ↔
        DeclaresField (declaredOccurrences (Site.root n)) (Site.root n) table field ∨
          MentionsField (Site.root n) table field := by
  obtain ⟨uses, hlayouts⟩ := exists_usesOnLayouts_eq_ok (scopeAt (Site.root n)) hbounds
  refine ⟨_, audit_rows_eq (openDocument_of_read hread "findall") hlayouts, fun table field => ?_⟩
  have hpairs := ((arranged_perm _).map fun r : Row => (r.table, r.field)).trans
    (rowsOf_pairs_perm (fieldsAt (Site.root n)) raw.toList
      (uses ++ otherUses (scopeAt (Site.root n)) (Site.root n)))
  have hdistinct : (fieldsAt (Site.root n)).Distinct := distinct_fieldsByTable _ _
  rw [hpairs.mem_iff, mem_pairs_iff hdistinct]
  exact hasField_iff_declares_or_mentions

/-- **When a table has declared fields only.** A table of the catalogue has a field exactly if it is
declared for the table or mentioned inside it. So the catalogue holds declared fields only exactly
if whatever is mentioned inside a base table is also declared for it. The report on the fields of a
document without infinite distances names the declared and the mentioned fields in the same way. -/
theorem only_declared_iff {raw : String} {n : Node} (hread : read raw = .ok (some n)) :
    (∀ table field, (build (Site.root n)).fieldsByTable.hasField table field = true ↔
      DeclaresField (occurrences (Site.root n)) (Site.root n) table field ∨
        MentionsField (Site.root n) table field) ∧
    ((∀ table field, (build (Site.root n)).fieldsByTable.hasField table field = true →
        DeclaresField (occurrences (Site.root n)) (Site.root n) table field) ↔
      ∀ table field, MentionsField (Site.root n) table field →
        DeclaresField (occurrences (Site.root n)) (Site.root n) table field) ∧
    (NoInfiniteBounds (Site.root n) → ∃ rows : List Row, (audit raw).rows = rows.map Row.cells ∧
      ∀ table field, (table, field) ∈ rows.map (fun r => (r.table, r.field)) ↔
        DeclaresField (declaredOccurrences (Site.root n)) (Site.root n) table field ∨
          MentionsField (Site.root n) table field) := by
  have hfields : ∀ table field,
      (build (Site.root n)).fieldsByTable.hasField table field = true ↔
        DeclaresField (occurrences (Site.root n)) (Site.root n) table field ∨
          MentionsField (Site.root n) table field :=
    fun table field => hasField_iff_declares_or_mentions
  refine ⟨hfields, ?_, rows_iff_declares_or_mentions hread⟩
  constructor
  · intro h table field hmentions
    exact h table field ((hfields table field).mpr (.inr hmentions))
  · intro h table field hhas
    rcases (hfields table field).mp hhas with hdeclares | hmentions
    · exact hdeclares
    · exact h table field hmentions

/-- A report with one table. The calculation of its only field refers to a field of another
table. -/
def referringReport : String :=
  "<F><BaseTable name='T'><FieldCatalog><Field name='f'><DisplayCalculation><Chunk>" ++
  "<Field table='U' name='g'/></Chunk></DisplayCalculation></Field></FieldCatalog></BaseTable></F>"

def referringTree : Node :=
  plain "F" []
    [plain "BaseTable" [("name", "T")]
      [plain "FieldCatalog" []
        [plain "Field" [("name", "f")]
          [plain "DisplayCalculation" []
            [plain "Chunk" [] [plain "Field" [("table", "U"), ("name", "g")] []]]]]]]

set_option maxRecDepth 20000 in
theorem read_referring : read referringReport = .ok (some referringTree) :=
  (read_eq_of_toList (toList_two _ _) (by decide) (by rfl) (by rfl)).trans (by rfl)

/-- The field `g` is not declared for `T`, but the catalogue gives it to `T`, and the report on
fields has a row for it. -/
theorem referring_field_taken :
    read referringReport = .ok (some referringTree) ∧
    NoInfiniteBounds (Site.root referringTree) ∧
    ¬ DeclaresField (occurrences (Site.root referringTree)) (Site.root referringTree) "T" "g" ∧
    (build (Site.root referringTree)).fieldsByTable.hasField "T" "g" = true ∧
    ∃ rows : List Row, (audit referringReport).rows = rows.map Row.cells ∧
      ("T", "g") ∈ rows.map fun r => (r.table, r.field) := by
  have hbounds : NoInfiniteBounds (Site.root referringTree) := by decide +kernel
  have hmentions : MentionsField (Site.root referringTree) "T" "g" := by
    rw [MentionsField]
    decide +kernel
  obtain ⟨hfields, -, hreport⟩ := only_declared_iff read_referring
  obtain ⟨rows, hrows, hmem⟩ := hreport hbounds
  exact ⟨read_referring, hbounds, by decide +kernel, (hfields "T" "g").mpr (.inr hmentions), rows,
    hrows, (hmem "T" "g").mpr (.inr hmentions)⟩

end DesignAudit.FieldUse
