import DesignAudit.Proofs.Catalog.Tables
import DesignAudit.Proofs.Markup.Reader

/-!
# The two registers of fields

The fields of a report are entered in two registers: that of the tables, where each table has its
fields, and that of the fields by table. Three passes fill both of them. The first one replaces a
table that is declared again, while its fields by table accumulate; the second and the third one
enter each field in both. `Consistent` is kept by every step: whatever a table has, the fields by
table have as well. Where no table is declared twice nothing is replaced, and the two hold the same
fields (`tableFields_tables`). The third pass meets only fields that the first one has entered
(`mem_fieldsInTables_of_catalogued`), so it brings no new name.
-/

namespace DesignAudit.Catalog

open Markup

/-! ## The passes -/

/-- The fields of a table, none if the table is missing. -/
def tableFields (ts : Register Table) (table : String) : Register Field :=
  (ts.getD table ⟨"", .empty⟩).fields

/-- The fields inside a base table, at any depth. -/
def fieldsInside (t : Site) : List Field :=
  (t.all "Field").filterMap fun f => (f.node.named? "name").map fun name => Field.ofNode name f.node

def Fields.enterAll (fs : Fields) (table : String) (fields : List Field) : Fields :=
  fields.foldl (fun fs f => fs.enter table f) fs

/-- The first pass at a base table: it replaces a table of the same name. -/
def enterTable (ts : Register Table) (t : Site) : Register Table :=
  match t.node.named? "name" with
  | none => ts
  | some table =>
    ts.insert table ⟨t.node.attr "id", .ofList ((fieldsInside t).map fun f => (f.name, f))⟩

/-- The first pass at a base table, for the fields by table. -/
def Fields.enterTable (fs : Fields) (t : Site) : Fields :=
  match t.node.named? "name" with
  | none => fs
  | some table => fs.enterAll table (fieldsInside t)

/-- The third pass at a base table of a catalogue. -/
def enterCatalogued (ts : Register Table) (c : String × Site) : Register Table :=
  (cataloguedFields c.2).foldl (fun ts f => enterField ts c.1 f)
    (if ts.has c.1 then ts else ts.insert c.1 ⟨c.2.node.attr "id", .empty⟩)

/-- The tables after the first two passes. -/
def tablesBeforeCatalogues (occurrences : Register String) (root : Site) : Register Table :=
  (fieldsWithTable root).foldl (fun ts d => enterField ts (base occurrences d.1) d.2)
    ((root.all "BaseTable").foldl enterTable .empty)

/-- The fields by table after the first two passes. -/
def fieldsBeforeCatalogues (occurrences : Register String) (root : Site) : Fields :=
  (fieldsWithTable root).foldl (fun fs d => fs.enter (base occurrences d.1) d.2)
    ((root.all "BaseTable").foldl Fields.enterTable .empty)

theorem tablesInDocument_eq (root : Site) :
    tablesInDocument root = (root.all "BaseTable").foldl enterTable .empty := by
  rw [tablesInDocument]
  congr 1
  funext ts t
  rw [enterTable, fieldsInside, List.map_filterMap]
  simp only [Option.map_map]
  rfl

theorem tables_eq (occurrences : Register String) (root : Site) :
    tables occurrences root =
      (cataloguedTables root).foldl enterCatalogued (tablesBeforeCatalogues occurrences root) := by
  rw [tablesBeforeCatalogues, ← tablesInDocument_eq]
  rfl

theorem foldl_fieldsInTables (root : Site) (fs : Fields) :
    (fieldsInTables root).foldl (fun fs d => fs.enter d.1 d.2) fs =
      (root.all "BaseTable").foldl Fields.enterTable fs := by
  rw [fieldsInTables, List.foldl_flatMap]
  congr 1
  funext fs t
  rw [Fields.enterTable]
  cases t.node.named? "name" with
  | none => rfl
  | some table =>
    have hinside : ((t.all "Field").filterMap fun f =>
        (f.node.named? "name").map fun name => (table, Field.ofNode name f.node)) =
        (fieldsInside t).map (table, ·) := by
      rw [fieldsInside, List.map_filterMap]
      simp only [Option.map_map]
      rfl
    simp only [hinside, List.foldl_map]
    rfl

theorem fieldsByTable_eq (occurrences : Register String) (root : Site) :
    fieldsByTable occurrences root =
      (cataloguedTables root).foldl (fun fs c => fs.enterAll c.1 (cataloguedFields c.2))
        (fieldsBeforeCatalogues occurrences root) := by
  rw [fieldsByTable, fieldDeclarations, List.foldl_append, List.foldl_append, List.foldl_flatMap,
    List.foldl_map, foldl_fieldsInTables]
  simp only [List.foldl_map]
  rfl

/-! ## What one step enters -/

theorem tableFields_insert (ts : Register Table) (name : String) (x : Table) (table : String) :
    tableFields (ts.insert name x) table =
      if table = name then x.fields else tableFields ts table := by
  rw [tableFields, Register.getD_insert, apply_ite Table.fields]
  rfl

theorem tableFields_enterField (ts : Register Table) (name : String) (f : Field) (table : String) :
    tableFields (enterField ts name f) table =
      if table = name then (tableFields ts name).insert f.name f else tableFields ts table :=
  tableFields_insert ts name _ table

theorem getD_enter (fs : Fields) (name : String) (f : Field) (table : String) :
    (fs.enter name f).getD table .empty =
      if table = name then (fs.getD name .empty).insert f.name f else fs.getD table .empty :=
  Register.getD_insert fs name table _ _

theorem getD_enterAll (fs : Fields) (name : String) (fields : List Field) (table : String) :
    (fs.enterAll name fields).getD table .empty =
      if table = name then (fs.getD name .empty).insertAll (fields.map fun f => (f.name, f))
      else fs.getD table .empty := by
  induction fields generalizing fs with
  | nil =>
    rw [Fields.enterAll, List.foldl_nil, List.map_nil]
    split
    · rename_i heq
      rw [heq]
      rfl
    · rfl
  | cons f fields ih =>
    rw [Fields.enterAll, List.foldl_cons, ← Fields.enterAll, ih, getD_enter, getD_enter, if_pos rfl,
      List.map_cons, Register.insertAll_cons]
    split <;> rfl

theorem has_enterAll (fs : Fields) (name : String) (fields : List Field) (table : String) :
    (fs.enterAll name fields).has table = true →
      table = name ∨ fs.has table = true := by
  rw [Fields.enterAll, Register.has_foldl fun _ => some name]
  · rintro (⟨-, -, h⟩ | h)
    · exact .inl (Option.some.inj h).symm
    · exact .inr h
  · intro fs f table
    rw [Fields.enter, Register.has_update, Bool.or_eq_true, beq_iff_eq, Option.some_inj, eq_comm]

/-- A table without fields that is added where none was has no effect on the fields. -/
theorem tableFields_ensure (ts : Register Table) (name id table : String) :
    tableFields (if ts.has name then ts else ts.insert name ⟨id, .empty⟩) table =
      tableFields ts table := by
  split
  · rfl
  · rename_i hnew
    rw [tableFields_insert]
    split
    · rename_i heq
      rw [heq, tableFields, Register.getD_of_not_has hnew]
    · rfl

/-! ## Consistency -/

/-- Every table with fields by table is a table, and what a table says of a field the fields by
table say as well. -/
structure Consistent (ts : Register Table) (fs : Fields) : Prop where
  known : ∀ table, fs.has table = true → ts.has table = true
  included : ∀ table field info, (tableFields ts table).get? field = some info →
    (fs.getD table .empty).get? field = some info

theorem Consistent.empty : Consistent .empty .empty where
  known := fun _ h => h
  included := fun _ _ _ h => h

variable {f : Field} {fs : Fields} {ts : Register Table} {t : Site}

theorem Consistent.enter (h : Consistent ts fs) (name : String)
    (f : Field) : Consistent (enterField ts name f) (fs.enter name f) where
  known := by
    intro table htable
    rw [Fields.enter, Register.has_update, Bool.or_eq_true] at htable
    rw [enterField, Register.has_update, Bool.or_eq_true]
    exact htable.imp_right (h.known table)
  included := by
    intro table field info
    rw [tableFields_enterField, getD_enter]
    split
    · rw [Register.get?_insert, Register.get?_insert]
      split
      · exact id
      · exact h.included name field info
    · exact h.included table field info

/-- The first pass keeps the registers consistent, although it replaces a table: the last entries of
the fields by table are those of the new table. -/
theorem Consistent.enterTable (h : Consistent ts fs)
    (t : Site) : Consistent (enterTable ts t) (fs.enterTable t) := by
  rw [Catalog.enterTable, Fields.enterTable]
  cases t.node.named? "name" with
  | none => exact h
  | some name =>
    constructor
    · intro table htable
      rw [Register.has_insert, Bool.or_eq_true, beq_iff_eq]
      exact (has_enterAll fs name _ table htable).imp_right (h.known table)
    · intro table field info
      rw [tableFields_insert, getD_enterAll]
      split
      · intro hinfo
        rw [Register.get?_ofList] at hinfo
        rw [Register.get?_insertAll, hinfo, Option.some_or]
      · exact h.included table field info

theorem Consistent.enterCatalogued (h : Consistent ts fs) (c : String × Site) :
    Consistent (enterCatalogued ts c) (fs.enterAll c.1 (cataloguedFields c.2)) := by
  refine List.foldl_rel (r := Consistent) ⟨fun table htable => ?_, ?_⟩
    fun f _ ts fs h => h.enter c.1 f
  · split
    · exact h.known table htable
    · rw [Register.has_insert, h.known table htable, Bool.or_true]
  · intro table field info
    rw [tableFields_ensure]
    exact h.included table field info

theorem consistent_tables (occurrences : Register String) (root : Site) :
    Consistent (tables occurrences root) (fieldsByTable occurrences root) := by
  have hfirst : Consistent ((root.all "BaseTable").foldl enterTable .empty)
      ((root.all "BaseTable").foldl Fields.enterTable .empty) :=
    List.foldl_rel (r := Consistent) .empty fun t _ _ _ h => h.enterTable t
  have hsecond : Consistent (tablesBeforeCatalogues occurrences root)
      (fieldsBeforeCatalogues occurrences root) :=
    List.foldl_rel (r := Consistent) hfirst fun d _ _ _ h => h.enter (base occurrences d.1) d.2
  rw [tables_eq, fieldsByTable_eq]
  exact List.foldl_rel (r := Consistent) hsecond fun c _ _ _ h => h.enterCatalogued c

/-! ## Tables that are declared once -/

/-- No two base tables have the same name. -/
def DistinctTables (root : Site) : Prop :=
  ((root.all "BaseTable").filterMap fun t => t.node.named? "name").Nodup

instance (root : Site) : Decidable (DistinctTables root) :=
  inferInstanceAs (Decidable (List.Nodup _))

/-- The two registers hold the same fields of every table. -/
def SameFields (ts : Register Table) (fs : Fields) : Prop :=
  ∀ table, tableFields ts table = fs.getD table .empty

theorem SameFields.enter (h : SameFields ts fs) (name : String)
    (f : Field) : SameFields (enterField ts name f) (fs.enter name f) := by
  intro table
  rw [tableFields_enterField, getD_enter, h name, h table]

/-- A base table that is new in both registers. -/
theorem SameFields.enterTable (h : SameFields ts fs) (t : Site)
    (hnew : ∀ name ∈ t.node.named? "name", ¬ fs.has name = true) :
    SameFields (enterTable ts t) (fs.enterTable t) := by
  rw [Catalog.enterTable, Fields.enterTable]
  cases hname : t.node.named? "name" with
  | none => exact h
  | some name =>
    intro table
    rw [tableFields_insert, getD_enterAll, Register.getD_of_not_has (hnew name hname), h table]
    rfl

theorem SameFields.enterCatalogued (h : SameFields ts fs) (c : String × Site) :
    SameFields (enterCatalogued ts c) (fs.enterAll c.1 (cataloguedFields c.2)) := by
  refine List.foldl_rel (r := SameFields) (fun table => ?_) fun f _ ts fs h => h.enter c.1 f
  rw [tableFields_ensure, h table]

theorem has_enterTable {table : String} (h : (fs.enterTable t).has table = true) :
    t.node.named? "name" = some table ∨ fs.has table = true := by
  rw [Fields.enterTable] at h
  split at h
  · exact .inr h
  · rename_i name hname
    exact (has_enterAll fs name _ table h).imp_left fun heq => hname.trans (congrArg some heq.symm)

/-- The first pass over tables of distinct names, none of which has fields before. -/
theorem SameFields.enterTables (h : SameFields ts fs)
    {sites : List Site} (hdistinct : (sites.filterMap fun t => t.node.named? "name").Nodup)
    (hnew : ∀ t ∈ sites, ∀ name ∈ t.node.named? "name", ¬ fs.has name = true) :
    SameFields (sites.foldl Catalog.enterTable ts) (sites.foldl Fields.enterTable fs) := by
  induction sites generalizing ts fs with
  | nil => exact h
  | cons t sites ih =>
    have hrest : (sites.filterMap fun t => t.node.named? "name").Nodup :=
      hdistinct.sublist ((List.sublist_cons_self t sites).filterMap _)
    refine ih (h.enterTable t (hnew t List.mem_cons_self)) hrest fun u hu name hname hhas => ?_
    rcases has_enterTable hhas with ht | hhas
    · -- the table just entered has the name of a later one
      rw [List.filterMap_cons, ht, List.nodup_cons] at hdistinct
      exact hdistinct.1 (List.mem_filterMap.mpr ⟨u, hu, hname⟩)
    · exact hnew u (List.mem_cons_of_mem t hu) name hname hhas

/-- Where no table is declared twice, a table has the fields that are listed for it by table. -/
theorem tableFields_tables {root : Site} (h : DistinctTables root) (occurrences : Register String) :
    SameFields (tables occurrences root) (fieldsByTable occurrences root) := by
  have hfirst : SameFields ((root.all "BaseTable").foldl enterTable .empty)
      ((root.all "BaseTable").foldl Fields.enterTable .empty) :=
    SameFields.enterTables (fun _ => rfl) h fun _ _ _ _ => Bool.false_ne_true
  have hsecond : SameFields (tablesBeforeCatalogues occurrences root)
      (fieldsBeforeCatalogues occurrences root) :=
    List.foldl_rel (r := SameFields) hfirst fun d _ _ _ h => h.enter (base occurrences d.1) d.2
  rw [tables_eq, fieldsByTable_eq]
  exact List.foldl_rel (r := SameFields) hsecond fun c _ _ _ h => h.enterCatalogued c

/-! ## Base-table catalogues -/

theorem mem_cataloguedTables {root t : Site} {table : String}
    (h : (table, t) ∈ cataloguedTables root) :
    t ∈ root.all "BaseTable" ∧ t.node.named? "name" = some table := by
  obtain ⟨c, hc, h⟩ := List.mem_flatMap.mp h
  obtain ⟨u, hu, h⟩ := List.mem_filterMap.mp h
  obtain ⟨name, hname, heq⟩ := Option.map_eq_some_iff.mp h
  obtain ⟨rfl, rfl⟩ := Prod.mk.inj heq
  exact ⟨Site.mem_all_trans hc hu, hname⟩

/-- What is found by going down from a place to a field lies below the place. -/
theorem mem_all_of_mem_allPath {s f : Site} (h : f ∈ s.allPath "FieldCatalog" ["Field"]) :
    f ∈ s.all "Field" := by
  obtain ⟨c, hc, h⟩ := List.mem_flatMap.mp h
  obtain ⟨g, hg, h⟩ := List.mem_flatMap.mp h
  obtain rfl := List.mem_singleton.mp h
  obtain ⟨hchild, htag⟩ := Site.mem_childrenNamed.mp hg
  have hbelow : f ∈ c.all "Field" :=
    Site.mem_all.mpr ⟨Site.mem_below_of_mem_children hchild, htag⟩
  exact Site.mem_all_trans hc hbelow

theorem mem_fieldsInside_of_catalogued (h : f ∈ cataloguedFields t) :
    f ∈ fieldsInside t := by
  obtain ⟨s, hs, h⟩ := List.mem_filterMap.mp h
  exact List.mem_filterMap.mpr ⟨s, mem_all_of_mem_allPath hs, h⟩

theorem mem_fieldsInTables_iff {root : Site} {table : String} :
    (table, f) ∈ fieldsInTables root ↔
      ∃ t ∈ root.all "BaseTable", t.node.named? "name" = some table ∧ f ∈ fieldsInside t := by
  rw [fieldsInTables, List.mem_flatMap]
  refine exists_congr fun t => and_congr_right fun _ => ?_
  cases t.node.named? "name" with
  | none => simp
  | some name =>
    simp only [List.mem_filterMap, Option.map_eq_some_iff, Prod.mk.injEq, Option.some.injEq,
      fieldsInside]
    constructor
    · rintro ⟨s, hs, field, hfield, rfl, rfl⟩
      exact ⟨rfl, s, hs, field, hfield, rfl⟩
    · rintro ⟨rfl, s, hs, field, hfield, rfl⟩
      exact ⟨s, hs, field, hfield, rfl, rfl⟩

/-- What the third pass enters the first pass has entered, in the same words. -/
theorem mem_fieldsInTables_of_catalogued {root t : Site} {table : String}
    (ht : (table, t) ∈ cataloguedTables root) (hf : f ∈ cataloguedFields t) :
    (table, f) ∈ fieldsInTables root := by
  obtain ⟨hmem, hname⟩ := mem_cataloguedTables ht
  exact mem_fieldsInTables_iff.mpr ⟨t, hmem, hname, mem_fieldsInside_of_catalogued hf⟩

theorem has_tablesBeforeCatalogues_iff {occurrences : Register String} {root : Site}
    {name : String} :
    (tablesBeforeCatalogues occurrences root).has name = true ↔
      (∃ d ∈ fieldsWithTable root, base occurrences d.1 = name) ∨
      ∃ t ∈ root.all "BaseTable", t.node.named? "name" = some name := by
  rw [tablesBeforeCatalogues, ← tablesInDocument_eq,
    Register.has_foldl fun d => some (base occurrences d.1), has_tablesInDocument]
  · simp only [Option.some_inj]
  · exact fun ts d name => has_enterField ts (base occurrences d.1) d.2 name

/-- The third pass brings no new table. -/
theorem has_tables_iff_before {occurrences : Register String} {root : Site} {name : String} :
    (tables occurrences root).has name = true ↔
      (tablesBeforeCatalogues occurrences root).has name = true := by
  rw [has_tables_iff, has_tablesBeforeCatalogues_iff]
  constructor
  · rintro (⟨⟨table, t⟩, hc, rfl⟩ | h)
    · obtain ⟨hmem, hname⟩ := mem_cataloguedTables hc
      exact .inr ⟨t, hmem, hname⟩
    · exact h
  · exact .inr

/-- The declarations that the first two passes read. -/
def declarationsBeforeCatalogues (occurrences : Register String) (root : Site) :
    List (String × Field) :=
  fieldsInTables root ++ (fieldsWithTable root).map fun d => (base occurrences d.1, d.2)

theorem fieldsBeforeCatalogues_eq (occurrences : Register String) (root : Site) :
    fieldsBeforeCatalogues occurrences root =
      (declarationsBeforeCatalogues occurrences root).foldl (fun fs d => fs.enter d.1 d.2)
        .empty := by
  rw [declarationsBeforeCatalogues, List.foldl_append, foldl_fieldsInTables, List.foldl_map]
  rfl

theorem mem_fieldDeclarations_iff_before {occurrences : Register String} {root : Site}
    {d : String × Field} :
    d ∈ fieldDeclarations occurrences root ↔
      d ∈ declarationsBeforeCatalogues occurrences root := by
  rw [fieldDeclarations, List.mem_append]
  constructor
  · rintro (h | h)
    · exact h
    · obtain ⟨⟨table, t⟩, ht, h⟩ := List.mem_flatMap.mp h
      obtain ⟨f, hf, rfl⟩ := List.mem_map.mp h
      exact List.mem_append_left _ (mem_fieldsInTables_of_catalogued ht hf)
  · exact .inl

/-- The third pass brings no new field. -/
theorem hasField_fieldsByTable_iff_before {occurrences : Register String} {root : Site}
    {table field : String} :
    (fieldsByTable occurrences root).hasField table field = true ↔
      (fieldsBeforeCatalogues occurrences root).hasField table field = true := by
  rw [hasField_fieldsByTable_iff, fieldsBeforeCatalogues_eq, hasField_foldl_enter]
  simp only [mem_fieldDeclarations_iff_before]
  simp [Fields.hasField]

/-! ## The catalogue -/

/-- **The catalogue of tables and fields is consistent.** Each table that has fields by table is a
table. What a table says of a field is said of it by table as well. If no table is declared twice,
the two hold the same fields of every table, in the same order. And base-table catalogues bring no
table and no field whose name was not there before they are read. -/
theorem catalogue_consistent (root : Site) :
    (∀ table, (build root).fieldsByTable.has table = true →
      (build root).tables.has table = true) ∧
    (∀ table entry field info, (build root).tables.get? table = some entry →
      entry.fields.get? field = some info →
      ∃ fields, (build root).fieldsByTable.get? table = some fields ∧
        fields.get? field = some info) ∧
    (DistinctTables root → ∀ table entry, (build root).tables.get? table = some entry →
      entry.fields = (build root).fieldsByTable.getD table .empty) ∧
    (∀ table, (build root).tables.has table = true ↔
      (tablesBeforeCatalogues (occurrences root) root).has table = true) ∧
    ∀ table field, (build root).fieldsByTable.hasField table field = true ↔
      (fieldsBeforeCatalogues (occurrences root) root).hasField table field = true := by
  have hconsistent : Consistent (build root).tables (build root).fieldsByTable :=
    consistent_tables (occurrences root) root
  have hentry : ∀ table entry, (build root).tables.get? table = some entry →
      tableFields (build root).tables table = entry.fields := by
    intro table entry h
    rw [tableFields, Register.getD, h, Option.getD_some]
  refine ⟨hconsistent.known, ?_, ?_, fun table => has_tables_iff_before,
    fun table field => hasField_fieldsByTable_iff_before⟩
  · intro table entry field info hget hinfo
    have hlisted := hconsistent.included table field info (hentry table entry hget ▸ hinfo)
    rw [Register.getD] at hlisted
    cases hfields : (build root).fieldsByTable.get? table with
    | none => simp [hfields] at hlisted
    | some fields => exact ⟨fields, rfl, by simpa [hfields] using hlisted⟩
  · intro hdistinct table entry hget
    rw [← hentry table entry hget]
    exact tableFields_tables hdistinct (occurrences root) table

/-- A report with a catalogue of two tables. A further field of one of them is declared under the
name of its occurrence. -/
def cataloguedReport : Node :=
  plain "F" []
    [plain "TableOccurrence" [("name", "O"), ("baseTable", "T")] [],
     plain "BaseTableCatalog" []
      [plain "BaseTable" [("name", "T"), ("id", "1")]
        [plain "FieldCatalog" [] [plain "Field" [("name", "f"), ("id", "7")] []]],
       plain "BaseTable" [("name", "U"), ("id", "2")] []],
     plain "FieldCatalog" [] [plain "Field" [("name", "g"), ("table", "O")] []]]

/-- The table `T` has the two fields in both registers, and `U` has none in either. -/
theorem cataloguedReport_consistent :
    DistinctTables (Site.root cataloguedReport) ∧
    ∃ t u, (build (Site.root cataloguedReport)).tables.get? "T" = some t ∧
      (build (Site.root cataloguedReport)).tables.get? "U" = some u ∧
      t.fields = (build (Site.root cataloguedReport)).fieldsByTable.getD "T" .empty ∧
      u.fields = (build (Site.root cataloguedReport)).fieldsByTable.getD "U" .empty ∧
      t.fields.names = ["f", "g"] ∧ u.fields.names = [] := by
  have hdistinct : DistinctTables (Site.root cataloguedReport) := by decide +kernel
  obtain ⟨-, -, hsame, -, -⟩ := catalogue_consistent (Site.root cataloguedReport)
  exact ⟨hdistinct, _, _, rfl, rfl, hsame hdistinct "T" _ rfl, hsame hdistinct "U" _ rfl,
    by decide +kernel, by decide +kernel⟩

end DesignAudit.Catalog
