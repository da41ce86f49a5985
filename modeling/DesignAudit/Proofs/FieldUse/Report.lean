import DesignAudit.FieldUse.Audit
import DesignAudit.Proofs.Register

/-!
# When a field counts as used

The report of the audit of fields has a row for each declared field, with the number of its uses. The
row of a field tells of a use exactly if one was found under the joined name of the field and its table
(`counted_iff`).
-/

namespace DesignAudit.FieldUse

open Markup Text Catalog

/-- The fields that a document declares. -/
def fieldsAt (root : Site) : Fields := fieldsByTable (declaredOccurrences root) root

/-- The scope in which the uses of a document are looked up. -/
def scopeAt (root : Site) : Scope := .ofCatalog (fieldsAt root) (declaredOccurrences root)

/-- A row of cells for a field of a table. -/
def IsRowOf (row : Sheet.Row) (table field : String) : Prop :=
  row.lookup "Table Name" = some (.text table) ∧ row.lookup "Field Name" = some (.text field)

/-- The report has a row for a field, and every row for it tells of at least one use and does not call
it unused. -/
def Counted (raw table field : String) : Prop :=
  (∃ row ∈ (audit raw).rows, IsRowOf row table field) ∧
  ∀ row ∈ (audit raw).rows, IsRowOf row table field →
    (∃ n : Int, row.lookup "Usage Count" = some (.whole n) ∧ 1 ≤ n) ∧
      row.lookup "Status" ≠ some (.text Status.unused.text)

/-! ## Declared fields -/

variable {fields : Fields} {text : List Char} {uses : List Use} {r : Row} {field table : String}

theorem exists_entry_of_hasField (h : fields.hasField table field = true) :
    ∃ fs, (table, fs) ∈ fields.entries ∧ field ∈ fs.names := by
  rw [Fields.hasField] at h
  split at h
  · rename_i fs hfs
    exact ⟨fs, Register.mem_of_lookup hfs, Register.mem_names_iff.mpr h⟩
  · cases h

theorem count_pos_of_hasField (h : fields.hasField table field = true) : 0 < fields.count := by
  obtain ⟨fs, hfs, hfield⟩ := exists_entry_of_hasField h
  rw [Fields.count, ← List.sum_eq_foldr, List.sum_pos_iff_exists_pos_nat]
  refine ⟨fs.size, List.mem_map_of_mem (List.mem_map_of_mem hfs), ?_⟩
  rw [Register.names, List.mem_map] at hfield
  obtain ⟨e, he, -⟩ := hfield
  exact List.length_pos_of_mem he

theorem lookup_map_snd {α β : Type} (f : α → β) (es : List (String × α)) (name : String) :
    (es.map fun e => (e.1, f e.2)).lookup name = (es.lookup name).map f := by
  induction es with
  | nil => rfl
  | cons e es ih =>
    rw [List.map_cons, List.lookup_cons, List.lookup_cons]
    cases name == e.1 with
    | true => rfl
    | false => exact ih

/-- The fields of a table as the scope keeps them. -/
def withIds (fs : Register Field) : Register (Option String) :=
  ⟨fs.entries.map fun (name, f) => (name, some f.id)⟩

theorem names_withIds (fs : Register Field) : (withIds fs).names = fs.names := by
  rw [Register.names, withIds, List.map_map]
  rfl

/-- The scope has the fields that are declared. -/
theorem mem_fieldsOf_iff {occurrences : Register String} :
    field ∈ (Scope.ofCatalog fields occurrences).fieldsOf table ↔
      fields.hasField table field = true := by
  have hget : (Scope.ofCatalog fields occurrences).fields.get? table =
      (fields.get? table).map withIds := lookup_map_snd withIds fields.entries table
  rw [Scope.fieldsOf, hget, Fields.hasField]
  cases fields.get? table with
  | none => simp
  | some fs =>
    simp only [Option.map_some, names_withIds, Register.mem_names_iff]

/-! ## Rows -/

theorem statusOf_ne_unused {cached : List String} {uses : Nat}
    (h : 0 < uses) : statusOf cached table field uses ≠ .unused := by
  rw [statusOf]
  repeat' split
  all_goals first | decide | omega

theorem status_text_injective {s t : Status} (h : s.text = t.text) : s = t := by
  revert h
  cases s <;> cases t <;> decide

/-- The rows are those of the declared fields. -/
theorem mem_rowsOf :
    r ∈ rowsOf fields text uses ↔
      ∃ table fs, (table, fs) ∈ fields.entries ∧ ∃ field ∈ fs.names,
        r = rowOf (cachedKeys fields) (occurrenceCounts fields text) uses table field := by
  simp only [rowsOf, sorted, List.mem_flatMap, mem_sortBy, List.mem_map, Prod.exists]
  constructor
  · rintro ⟨table, fs, hfs, field, hfield, rfl⟩
    exact ⟨table, fs, hfs, field, hfield, rfl⟩
  · rintro ⟨table, fs, hfs, field, hfield, rfl⟩
    exact ⟨table, fs, hfs, field, hfield, rfl⟩

theorem mem_arranged {rows : List Row} : r ∈ arranged rows ↔ r ∈ rows := by
  simp only [arranged, mem_sortBy]

/-- The report of an audit that completes. -/
theorem audit_rows {raw : String} {root : Site} (hopen : openDocument "findall" raw = .ok root)
    (hlayouts : usesOnLayouts (scopeAt root) root = .ok uses) (hcount : 0 < (fieldsAt root).count) :
    (audit raw).rows =
      (arranged (rowsOf (fieldsAt root) raw.toList (uses ++ otherUses (scopeAt root) root))).map
        Row.cells := by
  rw [fieldsAt] at hcount
  rw [scopeAt, fieldsAt] at hlayouts
  simp only [audit, hopen, Nat.ne_of_gt hcount, if_false, hlayouts]
  rfl

/-- The cells of a row name the field of the row. -/
theorem isRowOf_cells :
    IsRowOf r.cells table field ↔ r.table = table ∧ r.field = field := by
  have htable : r.cells.lookup "Table Name" = some (.text r.table) := rfl
  have hfield : r.cells.lookup "Field Name" = some (.text r.field) := rfl
  rw [IsRowOf, htable, hfield, Option.some_inj, Option.some_inj, Sheet.Cell.text.injEq,
    Sheet.Cell.text.injEq]

/-- A row tells of a use exactly if one has the key of its field. -/
theorem total_pos_iff (hr : r ∈ rowsOf fields text uses) :
    0 < r.total ↔ ∃ u ∈ uses, u.key = fieldKey r.table r.field := by
  obtain ⟨table, fs, -, field, -, rfl⟩ := mem_rowsOf.mp hr
  rw [Row.total, rowOf, List.length_pos_iff_exists_mem]
  simp only [List.mem_filter, beq_iff_eq]

/-- A row that tells of a use does not call its field unused. -/
theorem status_ne_unused (hr : r ∈ rowsOf fields text uses) (hpos : 0 < r.total) :
    r.status ≠ .unused := by
  obtain ⟨table, fs, -, field, -, rfl⟩ := mem_rowsOf.mp hr
  exact statusOf_ne_unused hpos

/-- A field is counted exactly if a use was found under its joined name. -/
theorem counted_iff {raw : String} {root : Site} (hopen : openDocument "findall" raw = .ok root)
    (hlayouts : usesOnLayouts (scopeAt root) root = .ok uses)
    (hfield : (fieldsAt root).hasField table field = true) :
    Counted raw table field ↔
      ∃ u ∈ uses ++ otherUses (scopeAt root) root, u.key = fieldKey table field := by
  have hrows := audit_rows hopen hlayouts (count_pos_of_hasField hfield)
  rw [Counted, hrows]
  constructor
  · rintro ⟨⟨row, hrow, hcells⟩, hall⟩
    obtain ⟨n, hn, hpos⟩ := (hall row hrow hcells).1
    obtain ⟨r, hr, rfl⟩ := List.mem_map.mp hrow
    obtain ⟨rfl, rfl⟩ := isRowOf_cells.mp hcells
    have htotal : (r.total : Int) = n := Sheet.Cell.whole.inj (Option.some.inj hn)
    exact (total_pos_iff (mem_arranged.mp hr)).mp (by omega)
  · intro huse
    obtain ⟨fs, hfs, hname⟩ := exists_entry_of_hasField hfield
    refine ⟨⟨_, List.mem_map_of_mem (mem_arranged.mpr (mem_rowsOf.mpr
      ⟨table, fs, hfs, field, hname, rfl⟩)), isRowOf_cells.mpr ⟨rfl, rfl⟩⟩, ?_⟩
    intro row hrow hcells
    obtain ⟨r, hr, rfl⟩ := List.mem_map.mp hrow
    obtain ⟨rfl, rfl⟩ := isRowOf_cells.mp hcells
    have hr := mem_arranged.mp hr
    have hpos : 0 < r.total := (total_pos_iff hr).mpr huse
    refine ⟨⟨r.total, rfl, by omega⟩, fun hstatus => status_ne_unused hr hpos ?_⟩
    exact status_text_injective (Sheet.Cell.text.inj (Option.some.inj hstatus))

end DesignAudit.FieldUse
