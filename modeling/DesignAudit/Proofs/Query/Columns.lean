import DesignAudit.Proofs.Query.Context
import DesignAudit.Proofs.Query.Verdict

/-!
# The columns of a verdict

A row tells its verdict in several columns: the gravest error, whether the tables and the fields
exist, which of them are missing, and what kinds of errors there are. An empty list of missing names
is first written as a word of its own, which the audit then blanks out. A table of this name is blanked
out with it, so that a row which misses this table and no other one shows no missing table. This is
the only way in which the columns can contradict each other (`verdicts_agree_iff`).
-/

namespace DesignAudit.Query

open Markup Markup.Site Text Text.Pattern
open Traversal

/-! ## Verdicts -/

section Verdict

variable (v : Verdict)

theorem status_eq_missingTable_iff : v.status = "Missing Table" ↔ v.missingTables ≠ [] := by
  rw [Verdict.status]
  cases v.missingTables with
  | cons t ts => simp
  | nil =>
    cases v.missingFields <;> cases v.occurrences <;> simp

/-- A verdict without a status finds nothing wrong. -/
theorem status_eq_empty_iff :
    v.status = "" ↔ v.missingTables = [] ∧ v.missingFields = [] ∧ v.occurrences = [] := by
  rw [Verdict.status]
  cases v.missingTables <;> cases v.missingFields <;> cases v.occurrences <;> simp

theorem reasons_eq_nil_iff :
    v.reasons = [] ↔ v.missingTables = [] ∧ v.missingFields = [] ∧ v.occurrences = [] := by
  rw [Verdict.reasons]
  cases v.missingTables <;> cases v.missingFields <;> cases v.occurrences <;> simp

/-- A status is a phrase, or empty. -/
theorem isBlanks_status_iff : IsBlanks v.status.toList ↔ v.status = "" := by
  rw [Verdict.status]
  split_ifs <;> decide

theorem not_isBlanks_of_mem_reasons : ∀ x ∈ v.reasons, ¬ IsBlanks x.toList := by
  have hphrases : ∀ x ∈ ["Missing tables", "Missing fields", "Table occurrence"],
      ¬ IsBlanks x.toList := by
    decide
  have hsub : v.reasons ⊆ ["Missing tables", "Missing fields", "Table occurrence"] := by
    rw [Verdict.reasons]
    split_ifs <;> decide
  exact fun x hx => hphrases x (hsub hx)

theorem yesIfNone_eq_no_iff {xs : List String} : yesIfNone xs = "No" ↔ xs ≠ [] := by
  cases xs <;> simp [yesIfNone]

end Verdict

/-! ## Blank texts -/

theorem isBlanks_append {xs ys : List Char} : IsBlanks (xs ++ ys) ↔ IsBlanks xs ∧ IsBlanks ys := by
  rw [IsBlanks, List.forall_mem_append]
  rfl

variable {xs : List String} {row : Sheet.Row} {column : String}

/-- Of texts that are not blank only none at all make a blank text. -/
theorem isBlanks_join_iff {sep : String}
    (h : ∀ x ∈ xs, ¬ IsBlanks x.toList) : IsBlanks (join sep xs).toList ↔ xs = [] := by
  match xs, h with
  | [], _ => simp [join, IsBlanks]
  | [x], h => simpa [join] using h x (by simp)
  | x :: y :: rest, h =>
    have hx := h x (by simp)
    simp [join, isBlanks_append, hx]

/-- The word for none is the text of one line only. -/
theorem lines_eq_none_iff : lines xs = "None" ↔ xs = ["None"] := by
  match xs with
  | [] => simp [lines, join]
  | [x] => simp [lines, join]
  | x :: y :: rest =>
    have hbreak : lines (x :: y :: rest) ≠ "None" := by
      intro h
      have hjoin : lines (x :: y :: rest) = x ++ "\n" ++ join "\n" (y :: rest) := rfl
      have hmem : '\n' ∈ "None".toList := by
        rw [← h, hjoin, String.toList_append, String.toList_append]
        simp
      revert hmem
      decide
    simp [hbreak]

theorem listOrNone_eq_none_iff :
    listOrNone xs = "None" ↔ xs = [] ∨ xs = ["None"] := by
  cases xs with
  | nil => simp [listOrNone]
  | cons x rest =>
    show lines (x :: rest) = "None" ↔ _
    rw [lines_eq_none_iff, or_iff_right (List.cons_ne_nil x rest)]

/-! ## Names that a verdict misses -/

theorem reads_tableWord {before : Option Char} {cs after : List Char} {gs : List (List Char)} :
    (alt (word "FROM") (word "JOIN")).Reads before cs after gs ↔
      (Spells "FROM" cs ∨ Spells "JOIN" cs) ∧ gs = [] := by
  rw [Reads, reads_word, reads_word, or_and_right]

theorem not_isBlanks_of_mem {c : Char} {cs : List Char} (hc : c ∈ cs) (h : isBlank c = false) :
    ¬ IsBlanks cs := by
  intro hblanks
  rw [hblanks c hc] at h
  cases h

/-- The tables that a calculation names have a name that is not blank. -/
theorem not_isBlanks_of_mem_tablesIn [SetOrder] {calculation : List Char} {t : String}
    (h : t ∈ tablesIn calculation) : ¬ IsBlanks t.toList := by
  obtain ⟨g, hg, rfl⟩ := List.mem_map.mp (mem_setOrder.mp h)
  obtain ⟨pre, cs, post, gs, -, hreads⟩ := reads_of_mem_findFirst hg
  simp only [tablePattern, reads_then fun _ _ _ _ => reads_tableWord, reads_gap_then,
    reads_name_then, reads_all_nil] at hreads
  obtain ⟨_, _, -, -, _, _, -, -, n, _, gs', -, hgs, ⟨hne, hname⟩, -⟩ := hreads
  obtain ⟨rfl, -⟩ := List.cons.inj hgs
  obtain ⟨c, more, rfl⟩ := List.exists_cons_of_ne_nil hne
  rw [String.toList_ofList]
  refine not_isBlanks_of_mem List.mem_cons_self ?_
  by_contra hblank
  rw [Bool.not_eq_false] at hblank
  have hnot := not_isName_of_isBlank hblank
  rw [hname c List.mem_cons_self] at hnot
  cases hnot

theorem nodup_tablesIn [SetOrder] (calculation : List Char) : (tablesIn calculation).Nodup :=
  (SetOrder.perm _).nodup_iff.mpr (nodup_distinct _)

/-- A table that a calculation names and that is not known. -/
def Misses [SetOrder] (s : Schema) (sql table : String) : Prop :=
  table ∈ tablesIn sql.toList ∧ s.knows table = false

section Reading

variable [SetOrder] {s : Schema} {sql : String}

theorem mem_missingTables_iff {t : String} :
    t ∈ (s.reading sql).verdict.missingTables ↔ Misses s sql t := by
  show t ∈ (tablesIn sql.toList).filter _ ↔ _
  rw [List.mem_filter, Bool.not_eq_true', Misses]

theorem missingTables_ne_nil_iff :
    (s.reading sql).verdict.missingTables ≠ [] ↔ ∃ t, Misses s sql t := by
  rw [Ne, List.eq_nil_iff_forall_not_mem, not_forall_not]
  simp only [mem_missingTables_iff]

theorem missingTables_eq_singleton_iff {name : String} :
    (s.reading sql).verdict.missingTables = [name] ↔ ∀ t, Misses s sql t ↔ t = name := by
  have hnodup : (s.reading sql).verdict.missingTables.Nodup := (nodup_tablesIn sql.toList).filter _
  rw [← List.perm_singleton, List.perm_ext_iff_of_nodup hnodup (List.nodup_singleton name)]
  simp only [mem_missingTables_iff, List.mem_singleton]

/-- A missing field is written with a sign between two names, and so never as the word for none. -/
theorem sign_mem_of_mem_missingFields {x : String}
    (h : x ∈ (s.reading sql).verdict.missingFields) : ':' ∈ x.toList ∨ '.' ∈ x.toList := by
  obtain ⟨f, hlisted, hf⟩ := List.mem_filterMap.mp h
  obtain ⟨r, -, rfl⟩ := List.mem_map.mp (mem_setOrder.mp hlisted)
  have hsub := (beginsWith_iff.mp (beginsWith_of_missing? hf)).subset
  cases r with
  | ofTable table field => exact .inl (hsub (by simp [FieldRef.text]))
  | ofAlias nick field => exact .inr (hsub (by simp [FieldRef.text]))

end Reading

/-! ## Columns -/

/-- A column that holds a blank text. -/
def BlankAt (row : Sheet.Row) (column : String) : Prop :=
  ∃ text, row.lookup column = some (.text text) ∧ IsBlanks text.toList

/-- A column that holds a text which is not blank. -/
def FilledAt (row : Sheet.Row) (column : String) : Prop :=
  ∃ text, row.lookup column = some (.text text) ∧ ¬ IsBlanks text.toList

theorem blankAt_iff {column text : String}
    (h : row.lookup column = some (.text text)) : BlankAt row column ↔ IsBlanks text.toList := by
  rw [BlankAt, h]
  simp

theorem filledAt_iff_not_blankAt (h : ∃ text, row.lookup column = some (.text text)) :
    FilledAt row column ↔ ¬ BlankAt row column := by
  obtain ⟨text, htext⟩ := h
  rw [blankAt_iff htext, FilledAt, htext]
  simp

/-- A column of missing names is blank if there are none, or if the only one is the word for none. -/
theorem blankAt_missing_iff (hcolumn : column ∈ ["Missing Tables", "Missing Fields"])
    (hcell : row.lookup column = some (.text (listOrNone xs)))
    (hxs : ∀ x ∈ xs, ¬ IsBlanks x.toList) :
    BlankAt (blankNone row) column ↔ xs = [] ∨ xs = ["None"] := by
  have hlookup := lookup_blankNone row column
  rw [hcell, Option.map_some, blanked] at hlookup
  have hmissing : (column == "Missing Tables" || column == "Missing Fields") = true := by
    simpa using hcolumn
  by_cases hnone : listOrNone xs = "None"
  · rw [hmissing, hnone, beq_self_eq_true, Bool.and_self, if_pos rfl] at hlookup
    rw [blankAt_iff hlookup, ← listOrNone_eq_none_iff]
    simp [IsBlanks, hnone]
  · have hcells : (Sheet.Cell.text (listOrNone xs) == .text "None") = false := by simpa using hnone
    rw [hcells, Bool.and_false, if_neg Bool.false_ne_true] at hlookup
    rw [listOrNone_eq_none_iff, not_or] at hnone
    rw [blankAt_iff hlookup, listOrNone, if_neg (by simpa using hnone.1), lines,
      isBlanks_join_iff hxs]
    simp [hnone]

/-- The columns of a verdict agree: a missing table is told by the status, the existence of tables and
the list of missing ones alike, a missing field by the existence of fields and the list, and there are
errors exactly if there is a status. -/
structure VerdictsAgree (row : Sheet.Row) : Prop where
  status : row.lookup "Error Status" = some (.text "Missing Table") ↔
    row.lookup "Table Exists" = some (.text "No")
  tables : row.lookup "Table Exists" = some (.text "No") ↔ FilledAt row "Missing Tables"
  fields : row.lookup "Fields Exist" = some (.text "No") ↔ FilledAt row "Missing Fields"
  errors : BlankAt row "Errors" ↔ BlankAt row "Error Status"

section Told

variable [SetOrder] (s : Schema) (place : Place) (sql : String)

/-- The row of the audit for a calculation at a place. -/
def told : Sheet.Row := blankNone (Row.cells s ⟨place, some (s.reading sql)⟩)

theorem lookup_told_status :
    (told s place sql).lookup "Error Status" = some (.text (s.reading sql).verdict.status) :=
  lookup_blankNone_of_ne (by decide)

theorem told_status_iff :
    (told s place sql).lookup "Error Status" = some (.text "Missing Table") ↔
      ∃ t, Misses s sql t := by
  rw [lookup_told_status, Option.some_inj, Sheet.Cell.text.injEq, status_eq_missingTable_iff,
    missingTables_ne_nil_iff]

theorem told_tableExists_iff :
    (told s place sql).lookup "Table Exists" = some (.text "No") ↔ ∃ t, Misses s sql t := by
  have hcell : (told s place sql).lookup "Table Exists" =
      some (.text (yesIfNone (s.reading sql).verdict.missingTables)) :=
    lookup_blankNone_of_ne (by decide)
  rw [hcell, Option.some_inj, Sheet.Cell.text.injEq, yesIfNone_eq_no_iff, missingTables_ne_nil_iff]

/-- No missing table is shown if none is missing, and if only that with the word for none is. -/
theorem told_missingTables_iff :
    BlankAt (told s place sql) "Missing Tables" ↔
      (¬ ∃ t, Misses s sql t) ∨ ∀ t, Misses s sql t ↔ t = "None" := by
  have hnames : ∀ t ∈ (s.reading sql).verdict.missingTables, ¬ IsBlanks t.toList := fun t ht =>
    not_isBlanks_of_mem_tablesIn (mem_missingTables_iff.mp ht).1
  rw [← missingTables_eq_singleton_iff, ← missingTables_ne_nil_iff, Ne, not_not]
  exact blankAt_missing_iff (by decide) rfl hnames

theorem told_missingFields_iff :
    (told s place sql).lookup "Fields Exist" = some (.text "No") ↔
      FilledAt (told s place sql) "Missing Fields" := by
  have hcell : (told s place sql).lookup "Fields Exist" =
      some (.text (yesIfNone (s.reading sql).verdict.missingFields)) :=
    lookup_blankNone_of_ne (by decide)
  have hnames : ∀ x ∈ (s.reading sql).verdict.missingFields, ¬ IsBlanks x.toList := by
    intro x hx
    rcases sign_mem_of_mem_missingFields hx with hcolon | hdot
    · exact not_isBlanks_of_mem hcolon (by decide)
    · exact not_isBlanks_of_mem hdot (by decide)
  have hnone : (s.reading sql).verdict.missingFields ≠ ["None"] := by
    intro h
    have hmem := sign_mem_of_mem_missingFields (h ▸ List.mem_singleton_self "None")
    revert hmem
    decide
  rw [hcell, Option.some_inj, Sheet.Cell.text.injEq, yesIfNone_eq_no_iff, told,
    filledAt_iff_not_blankAt (exists_lookup_blankNone ⟨_, rfl⟩),
    blankAt_missing_iff (by decide) rfl hnames, or_iff_left hnone]

theorem told_errors_iff :
    BlankAt (told s place sql) "Errors" ↔ BlankAt (told s place sql) "Error Status" := by
  have hreasons : (told s place sql).lookup "Errors" =
      some (.text (join "; " (s.reading sql).verdict.reasons)) :=
    lookup_blankNone_of_ne (by decide)
  rw [blankAt_iff hreasons, blankAt_iff (lookup_told_status s place sql),
    isBlanks_join_iff (not_isBlanks_of_mem_reasons _), isBlanks_status_iff, reasons_eq_nil_iff,
    status_eq_empty_iff]

end Told

/-- The columns of a row that is no error agree, unless the calculation misses a table with the word
for none as its name and misses no other table. Such a row has a missing table by its status and by
the existence of tables, and shows none. -/
theorem verdicts_agree_iff [SetOrder] {raw : String} {row : Sheet.Row}
    (hrow : row ∈ (audit raw).rows) (hcategory : row.lookup "Category" ≠ some (.text "Error")) :
    ∃ root sql, openDocument "findall" (replace "??" "*" raw) = .ok root ∧
      row.lookup "SQL Text" = some (.text sql) ∧
      (row.lookup "Error Status" = some (.text "Missing Table") ↔
        ∃ t, Misses (Schema.ofRoot root) sql t) ∧
      (row.lookup "Table Exists" = some (.text "No") ↔ ∃ t, Misses (Schema.ofRoot root) sql t) ∧
      (BlankAt row "Missing Tables" ↔ (¬ ∃ t, Misses (Schema.ofRoot root) sql t) ∨
        ∀ t, Misses (Schema.ofRoot root) sql t ↔ t = "None") ∧
      (row.lookup "Fields Exist" = some (.text "No") ↔ FilledAt row "Missing Fields") ∧
      (BlankAt row "Errors" ↔ BlankAt row "Error Status") ∧
      (VerdictsAgree row ↔ ¬ ∀ t, Misses (Schema.ofRoot root) sql t ↔ t = "None") := by
  obtain ⟨root, rows, r, hopen, hrows, hr, rfl⟩ := exists_of_mem_audit hrow
  have herror : r.place.category ≠ "Error" := by
    intro h
    apply hcategory
    rw [lookup_blankNone_of_ne (by decide)]
    exact congrArg (fun c => some (Sheet.Cell.text c)) h
  obtain ⟨sql, hread⟩ := reading_of_mem_rowsInOrder hrows r hr herror
  obtain ⟨place, reading⟩ := r
  obtain rfl : reading = some ((Schema.ofRoot root).reading sql) := hread
  have hstatus := told_status_iff (Schema.ofRoot root) place sql
  have hexists := told_tableExists_iff (Schema.ofRoot root) place sql
  have htables := told_missingTables_iff (Schema.ofRoot root) place sql
  have hfields := told_missingFields_iff (Schema.ofRoot root) place sql
  have herrors := told_errors_iff (Schema.ofRoot root) place sql
  refine ⟨root, sql, hopen, lookup_blankNone_of_ne (by decide), hstatus, hexists, htables, hfields,
    herrors, ?_⟩
  have hfilled : FilledAt (told (Schema.ofRoot root) place sql) "Missing Tables" ↔
      ¬ BlankAt (told (Schema.ofRoot root) place sql) "Missing Tables" :=
    filledAt_iff_not_blankAt (exists_lookup_blankNone ⟨_, rfl⟩)
  constructor
  · intro hagree honly
    have hshown := hagree.tables.mp (hexists.mpr ⟨"None", (honly "None").mpr rfl⟩)
    exact hfilled.mp hshown (htables.mpr (.inr honly))
  · intro hnot
    refine ⟨hstatus.trans hexists.symm, hexists.trans ?_, hfields, herrors⟩
    rw [← told, hfilled, htables, or_iff_left hnot, not_not]

/-! ## A table with the word for none as its name -/

/-- A calculation that runs a query on the table `None`. -/
def noneCall : String := "ExecuteSQL ( \"SELECT a FROM None\" )"

/-- A document without tables, with one script that runs `noneCall`. -/
def noneReport : String :=
  "<F><Script name='S'><Step><Calculation>" ++
  "ExecuteSQL ( \"SELECT a FROM None\" )</Calculation></Step></Script></F>"

def noneTree : Node :=
  plain "F" []
    [plain "Script" [("name", "S")]
      [plain "Step" [] [calculationOf noneCall]]]

set_option maxRecDepth 20000 in
theorem read_none : read noneReport = .ok (some noneTree) :=
  (read_eq_of_toList (toList_two _ _) (by decide) (by rfl) (by rfl)).trans (by rfl)

theorem replace_none : replace "??" "*" noneReport = noneReport :=
  replace_eq_self (toList_two _ _) (by decide +kernel)

theorem open_none :
    openDocument "findall" (replace "??" "*" noneReport) = .ok (Site.root noneTree) := by
  rw [replace_none]
  exact openDocument_of_read read_none "findall"

theorem rows_none :
    ∃ rows, rowsInOrder (Schema.ofRoot (Site.root noneTree)) (Site.root noneTree) = .ok rows :=
  ⟨_, rfl⟩

theorem noneCall_opens : OpensWithCall (trim noneCall) :=
  ⟨by decide +kernel, by decide +kernel⟩

theorem misses_none_iff (t : String) :
    Misses (Schema.ofRoot (Site.root noneTree)) (trim noneCall) t ↔ t = "None" := by
  have htables : tablesIn (trim noneCall).toList = ["None"] := by decide +kernel
  have hunknown : (Schema.ofRoot (Site.root noneTree)).knows "None" = false := by decide +kernel
  rw [Misses, htables, List.mem_singleton]
  constructor
  · exact And.left
  · rintro rfl
    exact ⟨rfl, hunknown⟩

/-- The query of `noneReport` has a row of category script. -/
theorem none_row : ∃ row ∈ (audit noneReport).rows,
    row.lookup "Category" = some (.text "Script") ∧
      row.lookup "SQL Text" = some (.text (trim noneCall)) := by
  obtain ⟨rows, hrows⟩ := rows_none
  obtain ⟨found, hfound, hflat⟩ := bind_eq_ok_iff.mp hrows
  rw [pure_eq_ok_iff] at hflat
  let script := (Site.root noneTree).children.get ⟨0, by decide⟩
  let step := script.children.get ⟨0, by decide⟩
  let x := step.children.get ⟨0, by decide⟩
  have hstep : step ∈ script.children := List.get_mem _ _
  have hx : x ∈ step.children := List.get_mem _ _
  have hmem : x ∈ (Site.root noneTree).below :=
    below_trans (below_trans (mem_below_of_mem_children (List.get_mem _ _))
      (mem_below_of_mem_children hstep)) (mem_below_of_mem_children hx)
  have hnamed : IsNearest IsNamedScript x script := by
    rw [isNearest_child_iff hx (by decide), isNearest_child_iff hstep (by decide)]
    exact isNearest_self (by decide)
  obtain ⟨rs, hrs, hat⟩ :=
    exists_mem_of_forall₂ (mapM_eq_ok_iff.mp hfound) (List.mem_cons_of_mem _ hmem)
  obtain ⟨r, hr, hsql, hcategory⟩ := exists_script_row rfl (.inr hmem) hnamed
    (show script.node.attr? "name" = some "S" by decide) (by decide) noneCall_opens
    (by decide +kernel) hat
  have hmem : r ∈ rows := hflat ▸ List.mem_flatten.mpr ⟨rs, hrs, hr⟩
  have hsearch := (mem_search_rows_iff open_none hrows).mpr ⟨r, hmem, rfl⟩
  refine ⟨_, blankNone_mem_audit hsearch, ?_, ?_⟩
  · rw [lookup_blankNone_of_ne (by decide)]
    exact congrArg (fun c => some (Sheet.Cell.text c)) hcategory
  · rw [lookup_blankNone_of_ne (by decide), lookup_sqlText, hsql]

/-- The row of `noneReport` misses a table by its status and shows none. -/
theorem none_verdicts_disagree : ∃ row ∈ (audit noneReport).rows,
    row.lookup "Category" = some (.text "Script") ∧
      row.lookup "Error Status" = some (.text "Missing Table") ∧
      row.lookup "Table Exists" = some (.text "No") ∧ BlankAt row "Missing Tables" ∧
      ¬ VerdictsAgree row := by
  obtain ⟨row, hrow, hcategory, hsql⟩ := none_row
  refine ⟨row, hrow, hcategory, ?_⟩
  have herror : row.lookup "Category" ≠ some (.text "Error") := by
    rw [hcategory]
    decide
  obtain ⟨root, sql, hopen, htext, hstatus, hexists, htables, -, -, hagree⟩ :=
    verdicts_agree_iff hrow herror
  obtain rfl := Except.ok.inj (open_none.symm.trans hopen)
  obtain rfl : trim noneCall = sql := by simpa [hsql] using htext
  have hmisses := (misses_none_iff "None").mpr rfl
  exact ⟨hstatus.mpr ⟨_, hmisses⟩, hexists.mpr ⟨_, hmisses⟩, htables.mpr (.inr misses_none_iff),
    fun h => hagree.mp h misses_none_iff⟩

end DesignAudit.Query
