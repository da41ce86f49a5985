import DesignAudit.Query.Audit
import DesignAudit.Proofs.Query.Extraction

/-!
# What the audit of queries reports

The rows of the report are those of the calculations that run a query, put in order
(`mem_search_rows_iff`), and each row tells what is read from its calculation alone
(`isRead_of_mem_rowsInOrder`). Whatever field a row lists has its origin in the queries of the
calculation (`Lists.origin`).
-/

namespace DesignAudit.Query

open Markup Text Traversal

/-! ## Rows -/

section Rows

variable [SetOrder]

/-- A row without a reading, or with what is read from a calculation. -/
def IsRead (schema : Schema) (r : Row) : Prop :=
  ∀ x, r.reading = some x → x = schema.reading x.sql

variable {rows : List Row} {r : Row} {schema : Schema} {row : Sheet.Row} {s : Site} {raw : String}

/-- The row of a node whose text is read has the place of the node. -/
theorem textRow?_eq_some_iff :
    textRow? schema s = .ok (some r) ↔
      ∃ t place, queryText? s.node = some t ∧ isRead s (pathText s) (trim t) = true ∧
        placeAt s = .ok place ∧ r = ⟨place, some (schema.reading (trim t))⟩ := by
  rw [textRow?]
  cases queryText? s.node with
  | none => simp
  | some t =>
    dsimp only
    by_cases hread : isRead s (pathText s) (trim t) = true
    · rw [if_pos hread, bind_eq_ok_iff]
      simp only [pure_eq_ok_iff, Option.some_inj]
      constructor
      · rintro ⟨place, hplace, rfl⟩
        exact ⟨t, place, rfl, hread, hplace, rfl⟩
      · rintro ⟨_, place, rfl, -, hplace, rfl⟩
        exact ⟨place, hplace, rfl⟩
    · rw [if_neg hread]
      constructor
      · intro h
        cases h
      · rintro ⟨_, place, ht, h, -⟩
        rw [← Option.some.inj ht] at h
        exact absurd h hread

/-- The row of an object is an error without a reading, or tells what is read from its calculation. -/
theorem objectRow?_cases (h : objectRow? schema s = some r) :
    r.place.category = "Error" ∧ r.reading = none ∨
    r.place.category = "Layout Object" ∧ ∃ sql, r.reading = some (schema.reading sql) := by
  simp only [objectRow?] at h
  split at h
  · rw [← Option.some.inj h]
    exact .inl ⟨rfl, rfl⟩
  · obtain ⟨⟨c, sql, use⟩, -, rfl⟩ := Option.map_eq_some_iff.mp h
    exact .inr ⟨rfl, sql, rfl⟩

/-- A node gives the row of its own text, and that of an object. -/
theorem mem_rowsAt_iff (h : rowsAt schema s = .ok rows) :
    r ∈ rows ↔ textRow? schema s = .ok (some r) ∨
      s.tag ∈ ["Object", "ExternalObject"] ∧ objectRow? schema s = some r := by
  obtain ⟨own, hown, h⟩ := bind_eq_ok_iff.mp h
  rw [pure_eq_ok_iff] at h
  rw [← h, hown, List.mem_append, Option.mem_toList, Option.mem_toList]
  by_cases hobject : s.tag = "Object" ∨ s.tag = "ExternalObject"
  · simp [hobject]
  · simp [hobject]

/-- A row without a reading is an error, and each other one tells what is read from a calculation. -/
theorem reading_of_mem_rowsAt (h : rowsAt schema s = .ok rows) : ∀ r ∈ rows,
      r.place.category = "Error" ∧ r.reading = none ∨
        ∃ sql, r.reading = some (schema.reading sql) := by
  intro r hr
  rcases (mem_rowsAt_iff h).mp hr with hown | ⟨-, hobject⟩
  · obtain ⟨t, place, -, -, -, rfl⟩ := textRow?_eq_some_iff.mp hown
    exact .inr ⟨trim t, rfl⟩
  · exact (objectRow?_cases hobject).imp_right And.right

theorem isRead_of_mem_rowsAt (h : rowsAt schema s = .ok rows) : ∀ r ∈ rows, IsRead schema r := by
  intro r hr x hx
  rcases reading_of_mem_rowsAt h r hr with ⟨-, hnone⟩ | ⟨sql, hsome⟩
  · rw [hnone] at hx
    cases hx
  · rw [hsome] at hx
    rw [← Option.some.inj hx]
    rfl

/-- Every row tells what is read from its calculation. -/
theorem isRead_of_mem_rowsInOrder {root : Site}
    (h : rowsInOrder schema root = .ok rows) : ∀ r ∈ rows, IsRead schema r := by
  obtain ⟨rowss, hrowss, h⟩ := bind_eq_ok_iff.mp h
  rw [pure_eq_ok_iff] at h
  rw [← h]
  exact forall_flatten_of_mapM hrowss fun _ _ _ hrows => isRead_of_mem_rowsAt hrows

/-- A row has no reading, or tells what is read from a calculation. -/
theorem reading_or_none_of_mem_rowsInOrder {root : Site}
    (h : rowsInOrder schema root = .ok rows) : ∀ r ∈ rows,
      r.reading = none ∨ ∃ sql, r.reading = some (schema.reading sql) := by
  obtain ⟨rowss, hrowss, h⟩ := bind_eq_ok_iff.mp h
  rw [pure_eq_ok_iff] at h
  rw [← h]
  exact forall_flatten_of_mapM hrowss fun _ _ _ hrows r hr =>
    (reading_of_mem_rowsAt hrows r hr).imp_left And.right

/-- Every row that is no error tells what is read from a calculation. -/
theorem reading_of_mem_rowsInOrder {root : Site}
    (h : rowsInOrder schema root = .ok rows) : ∀ r ∈ rows,
      r.place.category ≠ "Error" → ∃ sql, r.reading = some (schema.reading sql) := by
  obtain ⟨rowss, hrowss, h⟩ := bind_eq_ok_iff.mp h
  rw [pure_eq_ok_iff] at h
  rw [← h]
  refine forall_flatten_of_mapM hrowss fun _ _ _ hrows r hr hcategory => ?_
  exact (reading_of_mem_rowsAt hrows r hr).resolve_left fun herror => hcategory herror.1

/-- The report has the rows of the document, in another order. -/
theorem mem_search_rows_iff {root : Site}
    (hopen : openDocument "findall" (replace "??" "*" raw) = .ok root)
    (hrows : rowsInOrder (Schema.ofRoot root) root = .ok rows) :
    row ∈ (search raw).rows ↔ ∃ r ∈ rows, r.cells (Schema.ofRoot root) = row := by
  have hof : rowsOf raw = .ok (arranged (rows.map (Row.cells (Schema.ofRoot root)))) :=
    bind_eq_ok_iff.mpr ⟨root, hopen, bind_eq_ok_iff.mpr ⟨rows, hrows, rfl⟩⟩
  rw [search, hof]
  simp only [List.mem_map, arranged, mem_sortBy]

theorem blankNone_mem_audit (h : row ∈ (search raw).rows) :
    blankNone row ∈ (audit raw).rows :=
  List.mem_map_of_mem h

/-- A row of the audit is that of a row of the document, with the word for none blanked out. -/
theorem exists_of_mem_audit (h : row ∈ (audit raw).rows) :
    ∃ root rows r, openDocument "findall" (replace "??" "*" raw) = .ok root ∧
      rowsInOrder (Schema.ofRoot root) root = .ok rows ∧ r ∈ rows ∧
      blankNone (r.cells (Schema.ofRoot root)) = row := by
  obtain ⟨found, hfound, rfl⟩ := List.mem_map.mp h
  rw [search] at hfound
  split at hfound
  · rename_i cells hcells
    obtain ⟨root, hopen, hrows⟩ := bind_eq_ok_iff.mp hcells
    obtain ⟨rows, hrows, hcells⟩ := bind_eq_ok_iff.mp hrows
    rw [pure_eq_ok_iff] at hcells
    rw [← hcells] at hfound
    simp only [arranged, mem_sortBy] at hfound
    obtain ⟨r, hr, rfl⟩ := List.mem_map.mp hfound
    exact ⟨root, rows, r, hopen, hrows, hr, rfl⟩
  · cases hfound

end Rows

/-! ## Blanked columns -/

/-- What a cell becomes when the word for none is blanked out. -/
def blanked (column : String) (cell : Sheet.Cell) : Sheet.Cell :=
  if (column == "Missing Tables" || column == "Missing Fields") && cell == .text "None" then
    .text ""
  else cell

theorem blankNone_eq_map (row : Sheet.Row) :
    blankNone row = row.map fun entry => (entry.1, blanked entry.1 entry.2) := by
  rw [blankNone]
  refine List.map_congr_left ?_
  rintro ⟨column, cell⟩ -
  dsimp only [blanked]
  split_ifs <;> rfl

theorem lookup_blankNone (row : Sheet.Row) (column : String) :
    (blankNone row).lookup column = (row.lookup column).map (blanked column) := by
  rw [blankNone_eq_map]
  induction row with
  | nil => rfl
  | cons entry rest ih =>
    rw [List.map_cons, List.lookup_cons, List.lookup_cons, ih]
    cases hname : column == entry.1 with
    | true => rw [beq_iff_eq.mp hname, Option.map_some]
    | false => rfl

/-- Only the columns of missing names are blanked out. -/
theorem lookup_blankNone_of_ne {row : Sheet.Row} {column : String}
    (h : column ≠ "Missing Tables" ∧ column ≠ "Missing Fields") :
    (blankNone row).lookup column = row.lookup column := by
  have hkept : blanked column = id := by
    funext cell
    simp [blanked, h]
  rw [lookup_blankNone, hkept, Option.map_id, id]

/-- A column that holds a text still does when the word for none is blanked out. -/
theorem exists_lookup_blankNone {row : Sheet.Row} {column : String}
    (h : ∃ s, row.lookup column = some (.text s)) :
    ∃ s, (blankNone row).lookup column = some (.text s) := by
  obtain ⟨s, hs⟩ := h
  rw [lookup_blankNone, hs, Option.map_some, blanked]
  split_ifs
  · exact ⟨"", rfl⟩
  · exact ⟨s, rfl⟩

/-! ## Listed fields -/

/-- The report has a row for a calculation, and its column of fields lists a field of a table. -/
def Lists [SetOrder] (raw sql table field : String) : Prop :=
  ∃ root rows r x, openDocument "findall" (replace "??" "*" raw) = .ok root ∧
    rowsInOrder (Schema.ofRoot root) root = .ok rows ∧ r ∈ rows ∧
    r.cells (Schema.ofRoot root) ∈ (search raw).rows ∧
    r.reading = some x ∧ x.sql = sql ∧ .ofTable table field ∈ x.extraction.fields

/-- What is listed has its origin in the queries of the calculation. -/
theorem Lists.origin [SetOrder] {raw sql table field : String} (h : Lists raw sql table field) :
    Origin (queries sql.toList) table field := by
  obtain ⟨root, rows, r, x, -, hrows, hr, -, hx, rfl, hfield⟩ := h
  rw [isRead_of_mem_rowsInOrder hrows r hr x hx] at hfield
  exact origin_of_mem_extract hfield

end DesignAudit.Query
