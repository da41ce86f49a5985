import DesignAudit.Proofs.Query.Found
import DesignAudit.Proofs.Query.Report
import DesignAudit.Proofs.Text.Replacement

/-!
# The order of the rows

The rows come in the order of the document and are then put in order by what two of their columns
show: the status, and the first of the tables. `ShowsStatus` and `ShowsFirst` say what a row shows
there, and `arranges_arranged` that the rows are put in order by it, rows that are alike in both keeping
their order. Which table is the first one is up to the order of sets.
-/

namespace DesignAudit.Query

open Text Text.Pattern

/-! ## What a row shows -/

/-- The statuses of rows, the gravest first. The last one is that of a row without an error. -/
def severities : List String := ["Missing Table", "Missing Field", "Not Base Table", ""]

def ShowsStatus (row : Sheet.Row) (status : String) : Prop :=
  status ∈ severities ∧ row.lookup "Error Status" = some (.text status)

/-- The name on the first line of the column of tables, without the sign of a warning. A row without
tables shows the empty name. -/
def ShowsFirst (row : Sheet.Row) (table : String) : Prop :=
  (∀ c ∈ table.toList, isName c = true) ∧
  ∃ sign rest : String, row.lookup "Tables" = some (.text (sign ++ table ++ rest)) ∧
    (sign = "" ∨ sign = "⚠️ ") ∧ (rest = "" ∨ beginsWith "\n" rest = true)

theorem textAt_of_lookup {row : Sheet.Row} {column t : String}
    (h : row.lookup column = some (.text t)) : textAt column row = t := by
  rw [textAt, h]

/-- The gravity of a status is its place among the statuses. -/
theorem gravity_eq_idxOf : ∀ status ∈ severities, gravity status = severities.idxOf status := by
  decide

theorem trim_of_isName {name : String} (h : ∀ c ∈ name.toList, isName c = true) :
    trim name = name := by
  have hkept : ∀ c ∈ name.toList, isBlank c ≠ true := by
    intro c hc hblank
    have hnot := not_isName_of_isBlank hblank
    rw [h c hc] at hnot
    cases hnot
  obtain ⟨xs, ys, hname, hxs, hys⟩ := exists_trimChars_eq isBlank name.toList
  obtain rfl : xs = [] := List.eq_nil_iff_forall_not_mem.mpr fun c hc =>
    hkept c (by rw [hname]; simp [hc]) (hxs c hc)
  obtain rfl : ys = [] := List.eq_nil_iff_forall_not_mem.mpr fun c hc =>
    hkept c (by rw [hname]; simp [hc]) (hys c hc)
  rw [List.nil_append, List.append_nil] at hname
  rw [trim, ← hname, String.ofList_toList]

theorem not_mem_of_isName {d : Char} (hd : isName d = false) {name : String}
    (h : ∀ c ∈ name.toList, isName c = true) : d ∉ name.toList := by
  intro hmem
  rw [h d hmem] at hd
  cases hd

/-- What stands before the first line break. -/
theorem firstLine_append {line rest : String} (hline : '\n' ∉ line.toList)
    (hrest : rest = "" ∨ beginsWith "\n" rest = true) :
    (cutAt "\n" (line ++ rest)).headD "" = line := by
  have hbreak : "\n".toList = ['\n'] := by decide
  rw [cutAt, hbreak, String.toList_append]
  rcases hrest with rfl | hrest
  · have hnot : ¬ ['\n'] <:+: line.toList := fun h => hline (h.subset List.mem_cons_self)
    rw [String.toList_empty, List.append_nil, cut_of_not_occurs (List.cons_ne_nil _ _) hnot]
    exact String.ofList_toList
  · rw [beginsWith_iff, hbreak] at hrest
    obtain ⟨more, hmore⟩ := hrest
    rw [← hmore, List.singleton_append, cut_singleton_append hline]
    exact String.ofList_toList

/-- The sign of a warning is taken away. -/
theorem replace_warningSign {sign table : String} (hsign : sign = "" ∨ sign = "⚠️ ")
    (htable : ∀ c ∈ table.toList, isName c = true) :
    replace warningSign "" (sign ++ table) = table := by
  have hletters : warningSign.toList ≠ [] := by decide
  have hnot : ¬ warningSign.toList <:+: table.toList := by
    intro h
    have hmem : '⚠' ∈ table.toList := h.subset (by decide)
    exact not_mem_of_isName (by decide) htable hmem
  rw [replace, String.toList_append, String.toList_empty]
  rcases hsign with rfl | rfl
  · rw [String.toList_empty, List.nil_append, replaceParts_of_not_infix hnot, String.ofList_toList]
  · have hpart := replaceParts_part_append hletters [] table.toList
    rw [ replaceParts_of_not_infix hnot, List.nil_append] at hpart
    exact (congrArg String.ofList hpart).trans String.ofList_toList

/-- Rows are compared by the first table that they show, in small letters. -/
theorem firstTable_of_showsFirst {row : Sheet.Row} {table : String} (h : ShowsFirst row table) :
    firstTable row = lower table := by
  obtain ⟨htable, sign, rest, hcell, hsign, hrest⟩ := h
  have hline : '\n' ∉ (sign ++ table).toList := by
    rw [String.toList_append, List.mem_append, not_or]
    refine ⟨?_, not_mem_of_isName (by decide) htable⟩
    rcases hsign with rfl | rfl <;> decide
  rw [firstTable, textAt_of_lookup hcell, firstLine_append hline hrest,
    replace_warningSign hsign htable, trim_of_isName htable]

/-! ## What the rows of a document show -/

theorem status_mem_severities (v : Verdict) : v.status ∈ severities := by
  rw [Verdict.status]
  split_ifs <;> decide

theorem showsStatus_cells (schema : Schema) (r : Row) : ShowsStatus (r.cells schema) r.status := by
  refine ⟨?_, rfl⟩
  rw [Row.status]
  split
  · exact status_mem_severities _
  · decide

/-- The first line of a column, and what follows it. -/
theorem exists_lines_cons (x : String) (xs : List String) :
    ∃ rest, lines (x :: xs) = x ++ rest ∧ (rest = "" ∨ beginsWith "\n" rest = true) := by
  cases xs with
  | nil => exact ⟨"", by simp [lines, join], .inl rfl⟩
  | cons y ys =>
    refine ⟨"\n" ++ join "\n" (y :: ys), ?_, .inr (beginsWith_append (beginsWith_self "\n") _)⟩
    rw [← String.append_assoc]
    rfl

section Order

variable [SetOrder]

theorem mem_setOrder {xs : List String} {x : String} : x ∈ SetOrder.list xs ↔ x ∈ xs :=
  (SetOrder.perm xs).mem_iff.trans mem_distinct

theorem isName_of_mem_tablesIn {calculation : List Char} {t : String}
    (h : t ∈ tablesIn calculation) : ∀ c ∈ t.toList, isName c = true := by
  obtain ⟨g, hg, rfl⟩ := List.mem_map.mp (mem_setOrder.mp h)
  obtain ⟨_, _, _, _, -, hreads⟩ := reads_of_mem_findFirst hg
  rw [String.toList_ofList]
  exact capturesNames_tablePattern.isName hreads List.mem_cons_self

theorem showsFirst_cells {schema : Schema} {r : Row}
    (h : r.reading = none ∨ ∃ sql, r.reading = some (schema.reading sql)) :
    ∃ table, ShowsFirst (r.cells schema) table := by
  obtain hempty | ⟨sql, hreading⟩ : (r.cells schema).lookup "Tables" = some (.text "") ∨
      ∃ sql, r.reading = some (schema.reading sql) := by
    refine h.imp_left fun hnone => ?_
    show some (Sheet.Cell.text ((r.reading.map _).getD "")) = _
    rw [hnone]
    rfl
  · exact ⟨"", by simp, "", "", hempty, .inl rfl, .inl rfl⟩
  · have hcell : (r.cells schema).lookup "Tables" = some (.text
        (lines ((tablesIn sql.toList).map fun t =>
          if schema.isOccurrence t then warningSign ++ t else t))) := by
      show some (Sheet.Cell.text ((r.reading.map _).getD "")) = _
      rw [hreading]
      rfl
    cases htables : tablesIn sql.toList with
    | nil =>
      rw [htables] at hcell
      exact ⟨"", by simp, "", "", hcell, .inl rfl, .inl rfl⟩
    | cons t ts =>
      rw [htables, List.map_cons] at hcell
      obtain ⟨rest, hrest, hbreak⟩ := exists_lines_cons
        (if schema.isOccurrence t then warningSign ++ t else t)
        (ts.map fun t => if schema.isOccurrence t then warningSign ++ t else t)
      rw [hrest] at hcell
      refine ⟨t, isName_of_mem_tablesIn (htables ▸ List.mem_cons_self),
        if schema.isOccurrence t then warningSign else "", rest, ?_, ?_, hbreak⟩
      · rw [hcell]
        split_ifs <;> simp
      · split_ifs
        · exact .inr rfl
        · exact .inl rfl

end Order

/-! ## Rows in order -/

/-- The order of two rows: the graver status first, and among rows of one status the lesser of the first
tables in small letters. -/
def Precedes (a b : Sheet.Row) : Prop :=
  ∃ s t u v, ShowsStatus a s ∧ ShowsStatus b t ∧ ShowsFirst a u ∧ ShowsFirst b v ∧
    (severities.idxOf s < severities.idxOf t ∨ s = t ∧ (lower u < lower v ∨ lower u = lower v))

/-- Rows are put in order, and those that show the same status and the same first table, up to the size
of letters, keep their order. -/
structure Arranges (rows arranged : List Sheet.Row) : Prop where
  perm : arranged.Perm rows
  ordered : arranged.Pairwise Precedes
  stable : ∀ status table,
    arranged.filter (fun r => textAt "Error Status" r = status ∧ firstTable r = table) =
      rows.filter fun r => textAt "Error Status" r = status ∧ firstTable r = table

/-- The statuses of rows in order are those of the rows, the gravest first. -/
theorem Arranges.statuses_eq {rows arranged : List Sheet.Row} (h : Arranges rows arranged)
    {statuses : List String} (hperm : (rows.map (textAt "Error Status")).Perm statuses)
    (hsorted : statuses.Pairwise fun s t => severities.idxOf s ≤ severities.idxOf t)
    (hmem : ∀ s ∈ statuses, s ∈ severities) :
    arranged.map (textAt "Error Status") = statuses := by
  have hall := (h.perm.map (textAt "Error Status")).trans hperm
  refine List.Perm.eq_of_pairwise (fun s t hs _ hst hts => ?_) ?_ hsorted hall
  · exact (List.idxOf_inj (hmem s (hall.mem_iff.mp hs))).mp (by omega)
  · rw [List.pairwise_map]
    refine h.ordered.imp ?_
    rintro a b ⟨s, t, -, -, hs, ht, -, -, hlt | ⟨rfl, -⟩⟩
    · rw [textAt_of_lookup hs.2, textAt_of_lookup ht.2]
      omega
    · rw [textAt_of_lookup hs.2, textAt_of_lookup ht.2]

theorem arranged_perm (rows : List Sheet.Row) : (arranged rows).Perm rows :=
  (sortBy_perm _ _).trans (sortBy_perm _ _)

theorem ordered_arranged {rows : List Sheet.Row}
    (hrows : ∀ row ∈ rows, (∃ s, ShowsStatus row s) ∧ ∃ t, ShowsFirst row t) :
    (arranged rows).Pairwise Precedes := by
  refine (sortBy_pairwise_then _ (sortBy_pairwise_then firstTable
    (List.pairwise_of_forall fun _ _ => trivial))).imp_of_mem fun {a b} ha hb h => ?_
  obtain ⟨⟨s, hs⟩, u, hu⟩ := hrows a ((arranged_perm rows).mem_iff.mp ha)
  obtain ⟨⟨t, ht⟩, v, hv⟩ := hrows b ((arranged_perm rows).mem_iff.mp hb)
  rw [textAt_of_lookup hs.2, textAt_of_lookup ht.2, gravity_eq_idxOf s hs.1, gravity_eq_idxOf t ht.1,
    firstTable_of_showsFirst hu, firstTable_of_showsFirst hv] at h
  refine ⟨s, t, u, v, hs, ht, hu, hv, ?_⟩
  rcases h with hgraver | ⟨hsame, hfirst⟩
  · exact .inl (Nat.compare_eq_lt.mp hgraver)
  · refine .inr ⟨(List.idxOf_inj hs.1).mp (Nat.compare_eq_eq.mp hsame), hfirst.imp ?_ fun h => ?_⟩
    · exact compare_text_eq_lt.mp
    · exact Std.compare_eq_iff_eq.mp h.1

/-- Rows with the same status and the same first table have the same keys, so sorting leaves them in
place among themselves. -/
theorem stable_arranged (rows : List Sheet.Row) (status table : String) :
    (arranged rows).filter (fun r => textAt "Error Status" r = status ∧ firstTable r = table) =
      rows.filter fun r => textAt "Error Status" r = status ∧ firstTable r = table := by
  have hkeys : ∀ r : Sheet.Row,
      decide (textAt "Error Status" r = status ∧ firstTable r = table) = true →
        textAt "Error Status" r = status ∧ firstTable r = table := fun r => of_decide_eq_true
  rw [arranged, filter_sortBy_of_key fun r hr => congrArg gravity (hkeys r hr).1,
    filter_sortBy_of_key fun r hr => (hkeys r hr).2]

theorem arranges_arranged {rows : List Sheet.Row}
    (hrows : ∀ row ∈ rows, (∃ s, ShowsStatus row s) ∧ ∃ t, ShowsFirst row t) :
    Arranges rows (arranged rows) :=
  ⟨arranged_perm rows, ordered_arranged hrows, stable_arranged rows⟩

end DesignAudit.Query
