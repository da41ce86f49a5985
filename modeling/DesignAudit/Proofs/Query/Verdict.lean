import DesignAudit.Dangling.Audit
import DesignAudit.Proofs.Catalog.Tables
import DesignAudit.Proofs.Markup.Reader
import DesignAudit.Proofs.Text.Cutting
import DesignAudit.Query.Verdict

/-!
# Two verdicts on a field

The audit of queries and the audit of dangling references both say whether a table has a field. One
asks the schema, the other one the catalogue, and the two are built by different passes: the schema
keeps a field of a field catalogue under the table name that is written there, the catalogue under the
base table, and the schema counts more names as tables. `reports_iff_flagged` says that the verdicts
are the same wherever field catalogues write base tables and no occurrence has two of them. What is
left of the differences does no harm, since in both a table that has a field is a table. The audit of
queries takes a field with its table as one text, so that a table whose name ends in a colon is not
found (`colonTable_misread`).
-/

namespace DesignAudit.Query

open Markup Catalog Text

/-! ## The schema -/

theorem mem_addName {names : List String} {name x : String} :
    x ∈ addName names name ↔ x ∈ names ∨ x = name := by
  rw [addName]
  split
  · rename_i h
    constructor
    · exact .inl
    · rintro (hx | rfl)
      · exact hx
      · simpa using h
  · rw [List.mem_append, List.mem_singleton]

theorem mem_foldl_addName {xs names : List String} {x : String} :
    x ∈ xs.foldl addName names ↔ x ∈ names ∨ x ∈ xs := by
  induction xs generalizing names with
  | nil => simp
  | cons y ys ih => rw [List.foldl_cons, ih, mem_addName, List.mem_cons, or_assoc]

variable {root : Site} {field table : String}

theorem mem_tables_iff :
    table ∈ (Schema.ofRoot root).tables ↔ table ∈ tableNames root := by
  rw [Schema.ofRoot, mem_foldl_addName]
  simp

theorem mem_getD_update (r : Register (List String)) (table name t field : String) :
    field ∈ (r.update table [] (addName · name)).getD t [] ↔
      field ∈ r.getD t [] ∨ (t, field) = (table, name) := by
  rw [Register.getD, Register.get?_update, Prod.mk.injEq]
  by_cases ht : t = table
  · subst ht
    rw [if_pos rfl, Option.getD_some, mem_addName]
    simp
  · simp [ht, Register.getD]

theorem mem_getD_foldl_update (ds : List (String × String)) (r : Register (List String))
    (table field : String) :
    field ∈ (ds.foldl (fun r d => r.update d.1 [] (addName · d.2)) r).getD table [] ↔
      field ∈ r.getD table [] ∨ (table, field) ∈ ds := by
  induction ds generalizing r with
  | nil => simp
  | cons d ds ih => rw [List.foldl_cons, ih, mem_getD_update, List.mem_cons, or_assoc]

theorem mem_fields_iff :
    field ∈ (Schema.ofRoot root).fields.getD table [] ↔ (table, field) ∈ fieldNames root := by
  refine (mem_getD_foldl_update (fieldNames root) .empty table field).trans ?_
  simp [Register.getD]

/-- In the schema a table with a field is a table. -/
theorem mem_tableNames_of_mem_fieldNames (h : (table, field) ∈ fieldNames root) :
    table ∈ tableNames root := by
  simp only [tableNames, List.mem_append]
  rw [fieldNames, List.append_assoc] at h
  rcases List.mem_append.mp h with h | h
  · obtain ⟨d, hd, heq⟩ := List.mem_map.mp h
    obtain ⟨t, ht, hd⟩ := List.mem_flatMap.mp hd
    cases hname : t.node.named? "name" with
    | none => simp [hname] at hd
    | some name =>
      rw [hname] at hd
      obtain ⟨f, -, hf⟩ := List.mem_filterMap.mp hd
      obtain ⟨field', -, rfl⟩ := Option.map_eq_some_iff.mp hf
      obtain rfl : name = table := (Prod.mk.inj heq).1
      exact .inl (.inl (.inl (.inl (List.mem_filterMap.mpr ⟨t, ht, hname⟩))))
  rcases List.mem_append.mp h with h | h
  · obtain ⟨d, hd, heq⟩ := List.mem_map.mp h
    obtain rfl : d.1 = table := (Prod.mk.inj heq).1
    exact .inl (.inl (.inl (.inr (List.mem_map_of_mem hd))))
  · obtain ⟨c, hc, h⟩ := List.mem_flatMap.mp h
    obtain ⟨f, -, heq⟩ := List.mem_map.mp h
    obtain rfl : c.1 = table := (Prod.mk.inj heq).1
    exact .inl (.inl (.inr (List.mem_map_of_mem hc)))

/-- A field is missing unless it is declared under the base table of the name before it. -/
theorem missing?_eq_none_iff {shown table field : String}
    (hshown : FieldRef.ofText shown = some (.ofTable table field)) :
    (Schema.ofRoot root).missing? shown = none ↔
      (base (declaredOccurrences root) table, field) ∈ fieldNames root := by
  have hfield : (Schema.ofRoot root).hasField table field = true ↔
      (base (declaredOccurrences root) table, field) ∈ fieldNames root := by
    rw [Schema.hasField, List.contains_iff_mem, mem_fields_iff]
    rfl
  have hknown : (base (declaredOccurrences root) table, field) ∈ fieldNames root →
      (Schema.ofRoot root).knows table = true := by
    intro h
    rw [Schema.knows, List.contains_iff_mem, mem_tables_iff]
    exact mem_tableNames_of_mem_fieldNames h
  rw [Schema.missing?, hshown]
  dsimp only
  rw [← hfield, Schema.absent?]
  rw [← hfield] at hknown
  constructor
  · intro h
    by_contra hno
    rw [if_neg hno] at h
    split at h
    · split at h <;> cases h
    · cases h
  · intro h
    rw [if_pos (hknown h), if_pos h]

/-- What is reported of a missing field begins with the field as it is written. -/
theorem beginsWith_of_missing? {s : Schema} {shown report : String}
    (h : s.missing? shown = some report) : beginsWith shown report = true := by
  have hself := beginsWith_self shown
  have habsent : ∀ {table field}, s.absent? table field shown = some report →
      beginsWith shown report = true := by
    intro table field h
    rw [Schema.absent?] at h
    split_ifs at h
    · cases h
      exact beginsWith_append (beginsWith_append₂ hself _ _) _
    · cases h
      exact hself
  rw [Schema.missing?] at h
  split at h
  · split_ifs at h
    · exact habsent h
    · cases h
      exact hself
  · split_ifs at h
    · exact habsent h
    · cases h
      exact beginsWith_append hself _
  · split_ifs at h
    cases h
    exact beginsWith_append hself _

/-! ## The catalogue -/

/-- The elements of field catalogues that give a table do not give an occurrence of another one. -/
def WrittenWithBases (root : Site) : Prop :=
  ∀ f ∈ root.allPath "FieldCatalog" ["Field"], ∀ table ∈ f.node.attr? "table",
    ∀ base ∈ (occurrences root).get? table, base = table

instance (root : Site) : Decidable (WrittenWithBases root) :=
  inferInstanceAs (Decidable (∀ f ∈ root.allPath "FieldCatalog" ["Field"],
    ∀ table ∈ f.node.attr? "table", ∀ base ∈ (occurrences root).get? table, base = table))

theorem WrittenWithBases.base_eq (h : WrittenWithBases root) {d : String × Field}
    (hd : d ∈ fieldsWithTable root) : base (occurrences root) d.1 = d.1 := by
  obtain ⟨f, hf, hd⟩ := List.mem_filterMap.mp hd
  split at hd
  · rename_i name table _ htable
    obtain rfl := Option.some.inj hd
    have hattr : f.node.attr? "table" = some table := (Option.filter_eq_some_iff.mp htable).1
    rw [base, Register.getD]
    cases hget : (occurrences root).get? table with
    | none => rfl
    | some base => exact h f hf table hattr base hget
  · cases hd

/-- Where field catalogues write base tables, the schema and the catalogue hold the same fields. -/
theorem fieldNames_eq (h : WrittenWithBases root) :
    fieldNames root =
      (fieldDeclarations (occurrences root) root).map fun d => (d.1, d.2.name) := by
  rw [fieldNames, fieldDeclarations, List.map_append, List.map_append, List.map_map,
    List.map_flatMap]
  congr 1
  · congr 1
    refine List.map_congr_left fun d hd => ?_
    show (d.1, d.2.name) = (base (occurrences root) d.1, d.2.name)
    rw [h.base_eq hd]
  · refine List.flatMap_congr fun c _ => ?_
    rw [List.map_map]
    rfl

/-- The catalogue misses nothing of a field exactly if its table has the field. -/
theorem known_missing?_eq_none_iff :
    (Dangling.Known.mk (build root)).missing? table field = none ↔
      (fieldsByTable (occurrences root) root).hasField (base (occurrences root) table) field =
        true := by
  rw [Dangling.Known.missing?]
  constructor
  · intro h
    by_contra hno
    rw [Bool.not_eq_true] at hno
    split at h
    · cases h
    · rw [if_pos (by rw [build, hno]; rfl)] at h
      cases h
  · intro h
    obtain ⟨f, hf, -⟩ := hasField_fieldsByTable_iff.mp h
    have htable : (build root).tables.has (base (build root).occurrences table) = true :=
      has_tables_of_mem hf
    have hfield : (build root).fieldsByTable.hasField (base (build root).occurrences table) field =
        true := h
    rw [htable, hfield]
    rfl

/-! ## Agreement -/

/-- A field of a table as a text names it. -/
def joined (table field : String) : String := (FieldRef.ofTable table field).text

/-- A verdict reports a field of a table: by the joined name, which may be followed by a note. -/
def Verdict.Reports (v : Verdict) (table field : String) : Prop :=
  ∃ report ∈ v.missingFields, beginsWith (joined table field) report = true

theorem reports_iff {s : Schema} {tables : List String} :
    (s.judge tables [joined table field]).Reports table field ↔
      s.missing? (joined table field) ≠ none := by
  rw [Verdict.Reports, Schema.judge]
  cases hreport : s.missing? (joined table field) with
  | none => simp [hreport]
  | some report => simp [hreport, beginsWith_of_missing? hreport]

/-- A joined name is taken apart into its two names, unless the first double colon begins within the
name of the table. -/
theorem ofText_joined (field : String) (hin : has "::" table = false)
    (hend : endsWith ":" table = false) :
    FieldRef.ofText (joined table field) = some (.ofTable table field) := by
  have hcolons : "::".toList = [':', ':'] := by decide
  have hcolon : ":".toList = [':'] := by decide
  have hcut : cutOnce? "::" (table ++ "::" ++ field) = some (table, field) := by
    refine cutOnce?_append field fun start hstart hne hprefix => ?_
    rw [hcolons] at hprefix
    obtain ⟨c, more, rfl⟩ := List.exists_cons_of_ne_nil hne
    obtain ⟨rfl, hrest⟩ := List.cons_prefix_cons.mp hprefix
    cases more with
    | nil =>
      -- the table would end in a colon
      rw [endsWith, hcolon, List.isSuffixOf_iff_suffix.mpr hstart] at hend
      cases hend
    | cons d more =>
      obtain ⟨rfl, -⟩ := List.cons_prefix_cons.mp hrest
      rw [has_eq_false_iff, hcolons] at hin
      exact hin (List.IsInfix.trans (List.prefix_append [':', ':'] more).isInfix hstart.isInfix)
  rw [FieldRef.ofText, joined, FieldRef.text, hcut]

/-- **The two verdicts are the same.** In a document that declares no occurrence for two base tables, and
whose field catalogues write base tables, take a table whose name neither holds a double colon nor ends
in a colon. A query that names a field of it is reported for the field exactly if the audit of dangling
references finds something missing of the field, that is, if the base table is not a table of the
catalogue or does not have the field. -/
theorem reports_iff_flagged {root : Site} (hsingle : SingleBases root)
    (hwritten : WrittenWithBases root) (tables : List String) {table : String}
    (hin : has "::" table = false) (hend : endsWith ":" table = false) (field : String) :
    (((Schema.ofRoot root).judge tables [joined table field]).Reports table field ↔
      (Dangling.Known.mk (build root)).missing? table field ≠ none) ∧
    ((Dangling.Known.mk (build root)).missing? table field ≠ none ↔
      (build root).tables.has (base (build root).occurrences table) = false ∨
        (build root).fieldsByTable.hasField (base (build root).occurrences table) field =
          false) := by
  have hfields : (base (declaredOccurrences root) table, field) ∈ fieldNames root ↔
      (fieldsByTable (occurrences root) root).hasField (base (occurrences root) table) field =
        true := by
    rw [hasField_fieldsByTable_iff, fieldNames_eq hwritten, base_occurrences hsingle, List.mem_map]
    constructor
    · rintro ⟨d, hd, heq⟩
      obtain ⟨htable, hname⟩ := Prod.mk.inj heq
      exact ⟨d.2, htable ▸ hd, hname⟩
    · rintro ⟨f, hf, rfl⟩
      exact ⟨_, hf, rfl⟩
  constructor
  · rw [reports_iff, ne_eq, ne_eq, missing?_eq_none_iff (ofText_joined field hin hend),
      known_missing?_eq_none_iff, hfields]
  · rw [Dangling.Known.missing?]
    cases (build root).tables.has (base (build root).occurrences table) <;>
      cases (build root).fieldsByTable.hasField (base (build root).occurrences table) field <;>
        simp

/-- A report with a table, an occurrence of it, and a field catalogue for another table. The name of the
occurrence holds a colon. -/
def twoTables : Node :=
  plain "F" []
    [plain "TableOccurrence" [("name", "O:o"), ("baseTable", "T")] [],
     plain "BaseTable" [("name", "T")] [plain "Field" [("name", "f")] []],
     plain "FieldCatalog" [] [plain "Field" [("name", "g"), ("table", "U")] []]]

/-- The field `f` of `T` is found under its occurrence, and `g` only under `U`. -/
theorem twoTables_verdicts :
    SingleBases (Site.root twoTables) ∧ WrittenWithBases (Site.root twoTables) ∧
    ¬ ((Schema.ofRoot (Site.root twoTables)).judge ["O:o"] ["O:o::f"]).Reports "O:o" "f" ∧
    ((Schema.ofRoot (Site.root twoTables)).judge ["O:o"] ["O:o::g"]).Reports "O:o" "g" ∧
    ¬ ((Schema.ofRoot (Site.root twoTables)).judge ["U"] ["U::g"]).Reports "U" "g" := by
  have hsingle : SingleBases (Site.root twoTables) := by decide +kernel
  have hwritten : WrittenWithBases (Site.root twoTables) := by decide +kernel
  have hjoined : joined "O:o" "f" = "O:o::f" ∧ joined "O:o" "g" = "O:o::g" ∧
      joined "U" "g" = "U::g" := by
    decide
  rw [← hjoined.1, ← hjoined.2.1, ← hjoined.2.2]
  refine ⟨hsingle, hwritten, ?_, ?_, ?_⟩
  · rw [(reports_iff_flagged hsingle hwritten ["O:o"] (by decide) (by decide) "f").1]
    decide +kernel
  · rw [(reports_iff_flagged hsingle hwritten ["O:o"] (by decide) (by decide) "g").1]
    decide +kernel
  · rw [(reports_iff_flagged hsingle hwritten ["U"] (by decide) (by decide) "g").1]
    decide +kernel

/-- A report with a table whose name ends in a colon. -/
def colonTable : Node :=
  plain "F" []
    [plain "BaseTable" [("name", "A")] [],
     plain "BaseTable" [("name", "A:")] [plain "Field" [("name", "x")] []]]

/-- The field `x` of `A:` is there, and yet it is reported: its joined name is read as the field `:x`
of `A`. -/
theorem colonTable_misread :
    SingleBases (Site.root colonTable) ∧ WrittenWithBases (Site.root colonTable) ∧
    has "::" "A:" = false ∧
    ((Schema.ofRoot (Site.root colonTable)).judge ["A"] [joined "A:" "x"]).Reports "A:" "x" ∧
    (Dangling.Known.mk (build (Site.root colonTable))).missing? "A:" "x" = none := by
  refine ⟨by decide +kernel, by decide +kernel, by decide, ?_, by decide +kernel⟩
  rw [reports_iff]
  decide +kernel

end DesignAudit.Query
