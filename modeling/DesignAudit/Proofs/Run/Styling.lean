import DesignAudit.Proofs.Book.Cells
import DesignAudit.Proofs.Markup.Reader
import DesignAudit.Proofs.Query.Report
import DesignAudit.Run.Check

/-!
# Styling and the values of a sheet

The sheets of the seven audits are written first and styled afterwards. Styling ends without a fault,
and it is meant to change fills and fonts only. `styling_changes_iff` says which values it does change:
the status of a layout that nothing leads to, in a folder that is kept for deletion or debugging.
-/

namespace DesignAudit

open Book Markup Sheet Text Traversal

/-! ## Rows of layouts -/

namespace Layout

/-- The columns of the report on layouts. -/
def columnNames : List String :=
  ["Layout Name", "Path", "Total Usage", "Status", "Used in Scripts", "Used in Buttons",
   "Used in Triggers", "Used in Other"]

theorem exists_cells_of_mem_audit {raw : String} {row : Sheet.Row} (h : row ∈ (audit raw).rows) :
    ∃ r : Row, r.cells = row := by
  unfold audit at h
  split at h
  · cases h
  · obtain ⟨r, -, rfl⟩ := List.mem_map.mp h
    exact ⟨r, rfl⟩

theorem columnsOf_audit {raw : String} (hne : (audit raw).rows ≠ []) :
    columnsOf (audit raw).rows = columnNames := by
  apply columnsOf_eq hne
  intro row hrow
  obtain ⟨r, rfl⟩ := exists_cells_of_mem_audit hrow
  rfl

theorem isPlainName_of_mem : ∀ n ∈ columnNames, IsPlainName n := by
  decide +kernel

/-- A row of the report on layouts whose status is lost when the sheet is styled: by its path as the
sheet holds it, the layout is in a folder for deletion or debugging, and nothing leads to it. A path
that the sheet cuts off may also fall under another kind of folder. -/
def Reworded (row : Sheet.Row) : Prop :=
  ∃ path total, row.lookup "Path" = some (.text path) ∧
    row.lookup "Total Usage" = some (.whole total) ∧
    shelfOf (keep cellLimit path) ≠ .ordinary ∧
    (total = 0 ∨ shelfOf (keep cellLimit path) ≠ shelfOf path)

theorem reworded_cells_iff {r : Row} :
    Reworded r.cells ↔ shelfOf (keep cellLimit r.path) ≠ .ordinary ∧
      (r.total = 0 ∨ shelfOf (keep cellLimit r.path) ≠ shelfOf r.path) := by
  constructor
  · rintro ⟨path, total, hpath, htotal, hkept⟩
    obtain rfl : r.path = path := Cell.text.inj (Option.some.inj hpath)
    obtain rfl : (r.total : Int) = total := Cell.whole.inj (Option.some.inj htotal)
    exact hkept.imp_right (Or.imp_left Int.ofNat_eq_zero.mp)
  · intro hkept
    exact ⟨r.path, r.total, rfl, rfl, hkept.imp_right (Or.imp_left Int.ofNat_eq_zero.mpr)⟩

theorem statusText_succ (n : Nat) (shelf : Shelf) :
    statusText (n + 1) shelf = statusText 1 shelf := rfl

/-- A status fits into a cell. -/
theorem written?_statusText (total : Nat) (shelf : Shelf) :
    written? (.text (statusText total shelf)) = some (.text (statusText total shelf)) := by
  cases total with
  | zero => cases shelf <;> decide +kernel
  | succ n =>
    rw [statusText_succ]
    cases shelf <;> decide +kernel

theorem restated_ne_iff (total : Nat) (shelf : Shelf) {shown : Shelf} (h : shown ≠ .ordinary) :
    restated (statusText total shelf) shown ≠ statusText total shelf ↔
      total = 0 ∨ shown ≠ shelf := by
  cases total with
  | zero =>
    revert h
    cases shelf <;> cases shown <;> decide
  | succ n =>
    rw [statusText_succ]
    simp only [Nat.succ_ne_zero, false_or]
    revert h
    cases shelf <;> cases shown <;> decide

end Layout

/-! ## Rows of queries -/

namespace Query

/-- The columns of the report on queries. -/
def columnNames : List String :=
  ["Error Status", "Category", "Details", "Other Info", "SQL Text", "Tables", "Base Tables", "Fields",
   "Raw Field Matches", "Commented?", "Missing Tables", "Missing Fields", "Table Exists",
   "Fields Exist", "Debug Info", "XML Path", "Field Name", "Field from XML", "XML Line", "Errors",
   "Base Table Name (Debug)", "BaseTable Match Tables (Debug)"]

theorem exists_cells_of_mem_audit {raw : String} {row : Sheet.Row} (h : row ∈ (audit raw).rows) :
    ∃ (schema : Schema) (r : Row), blankNone (r.cells schema) = row := by
  obtain ⟨root, -, r, -, -, -, heq⟩ := exists_of_mem_audit h
  exact ⟨Schema.ofRoot root, r, heq⟩

theorem names_blankNone (row : Sheet.Row) : (blankNone row).map (·.1) = row.map (·.1) := by
  rw [blankNone_eq_map, List.map_map]
  rfl

theorem columnsOf_audit {raw : String} (hne : (audit raw).rows ≠ []) :
    columnsOf (audit raw).rows = columnNames := by
  apply columnsOf_eq hne
  intro row hrow
  obtain ⟨schema, r, rfl⟩ := exists_cells_of_mem_audit hrow
  rw [names_blankNone]
  rfl

theorem isPlainName_of_mem : ∀ n ∈ columnNames, IsPlainName n := by
  decide +kernel

/-- The columns of missing names hold texts. -/
theorem exists_lookup_missing {raw : String} {row : Sheet.Row} (h : row ∈ (audit raw).rows)
    {column : String} (hcolumn : column ∈ ["Missing Tables", "Missing Fields"]) :
    ∃ s, row.lookup column = some (.text s) := by
  obtain ⟨schema, r, rfl⟩ := exists_cells_of_mem_audit h
  have htext : ∃ s, (r.cells schema).lookup column = some (.text s) := by
    simp only [List.mem_cons, List.not_mem_nil, or_false] at hcolumn
    obtain rfl | rfl := hcolumn
    · exact ⟨_, rfl⟩
    · exact ⟨_, rfl⟩
  exact exists_lookup_blankNone htext

end Query

/-! ## Styling -/

namespace Run

open Layout

theorem status_column : (Register.ofList Layout.columnNames.zipIdx).get? "Status" = some 3 := by
  decide

theorem path_column : (Register.ofList Layout.columnNames.zipIdx).get? "Path" = some 1 := by
  decide

theorem layoutRow_changes_iff {r : Layout.Row} {row row' : List Styled}
    (hrow : List.Forall₂ (fun n c => written? ((List.lookup n r.cells).getD .empty) = some c)
      Layout.columnNames (valuesOf row))
    (h : Audit.layouts.styleRow (.ofList Layout.columnNames.zipIdx) row = .ok row') (j : Nat) :
    (valuesOf row')[j]? ≠ (valuesOf row)[j]? ↔ j = 3 ∧ Reworded r.cells := by
  obtain ⟨path, hpath, -, hpathWritten⟩ := exists_get?_of_holds hrow path_column rfl
  obtain ⟨status, hstatus, hat, hstatusWritten⟩ := exists_get?_of_holds hrow status_column rfl
  have hfound : status = .text (statusText r.total (shelfOf r.path)) :=
    Option.some.inj (hstatusWritten.symm.trans (written?_statusText _ _))
  have hpathText : Values.text ⟨.ofList Layout.columnNames.zipIdx, row⟩ "Path" =
      keep cellLimit r.path := text_eq_keep hpath hpathWritten
  have hstatusText : Values.text ⟨.ofList Layout.columnNames.zipIdx, row⟩ "Status" =
      statusText r.total (shelfOf r.path) := by
    unfold Values.text
    rw [hstatus, hfound]
  rw [valuesOf_styleRow_layouts status_column h, hpathText, hstatusText, reworded_cells_iff]
  by_cases hordinary : shelfOf (keep cellLimit r.path) = .ordinary
  · simp [hordinary]
  · rw [if_neg hordinary, List.getElem?_set]
    by_cases hj : 3 = j
    · subst hj
      have hlt : 3 < (valuesOf row).length := (List.getElem?_eq_some_iff.mp hat).1
      have hne := restated_ne_iff r.total (shelfOf r.path) hordinary
      rw [if_pos rfl, if_pos hlt, hat, hfound]
      simp [hordinary, ← hne]
    · simp [hj, Ne.symm hj]

/-- Whatever an audit finds, the rows of its sheet can be styled. -/
theorem exists_styleRow_of_audit {debug : Bool} {a : Audit} {m : Material} {found : Findings}
    {cells : List (List Styled)} {header : List Styled} {body : List (List Styled)}
    (hfound : auditOf debug a m = .ok found) (hcells : writeCells found.rows = (cells, true))
    (hfilled : filledUp cells = header :: body) :
    ∀ row ∈ body, ∃ row', a.styleRow (Grid.columns ⟨header.map headed :: body⟩) row = .ok row' := by
  intro row hrow
  apply exists_styleRow_eq_ok
  rintro rfl column hcolumn c hc
  obtain rfl := Except.ok.inj hfound
  by_cases hrows : (Query.audit m.text).rows = []
  · -- an empty page has no column of this name
    rw [hrows] at hcells
    obtain rfl := (Prod.mk.inj hcells).1
    obtain ⟨rfl, rfl⟩ := List.cons.inj hfilled
    cases hc
  · have hholds := holds_of_filledUp hcells hrows (Query.columnsOf_audit hrows)
      (List.cons_ne_nil _ _) hfilled
    have hheader : valuesOf (header.map headed) = Query.columnNames.map .text := by
      rw [valuesOf_headed]
      exact valuesOf_header hholds Query.isPlainName_of_mem
    rw [columns_eq hheader Query.isPlainName_of_mem] at hc
    obtain ⟨r, hr, hrow⟩ := exists_mem_of_forall₂ hholds.body.flip hrow
    obtain ⟨s, hs⟩ := Query.exists_lookup_missing hr hcolumn
    obtain ⟨i, hget, hname⟩ : ∃ i,
        (Register.ofList Query.columnNames.zipIdx).get? column = some i ∧
          Query.columnNames[i]? = some column := by
      simp only [List.mem_cons, List.not_mem_nil, or_false] at hcolumn
      obtain rfl | rfl := hcolumn
      · exact ⟨10, by decide, rfl⟩
      · exact ⟨11, by decide, rfl⟩
    obtain ⟨d, hd, -, hwritten⟩ := exists_get?_of_holds hrow hget hname
    obtain rfl := Option.some.inj (hc.symm.trans hd)
    rw [hs, Option.getD_some] at hwritten
    exact (eq_empty_or_text_of_written hwritten).imp And.left fun h => ⟨_, h⟩

theorem status_position {j : Nat} :
    (Layout.columnNames.map Cell.text)[j]? = some (.text "Status") ↔ j = 3 := by
  constructor
  · intro h
    have hlt : j < 8 := (List.getElem?_eq_some_iff.mp h).1
    have hall : ∀ k < 8, (Layout.columnNames.map Cell.text)[k]? = some (.text "Status") → k = 3 := by
      decide
    exact hall j hlt h
  · rintro rfl
    rfl

/-- What styling changes in the sheet of layouts, if there are any. -/
theorem layoutSheet_changes_iff {rows : List Sheet.Row} {header : List Styled}
    {body body' : List (List Styled)} (hholds : Holds Layout.columnNames rows header body)
    (hrows : ∀ row ∈ rows, ∃ r : Layout.Row, r.cells = row)
    (hbody : List.Forall₂ (fun row row' => Audit.layouts.styleRow
      (Grid.columns ⟨header.map headed :: body⟩) row = .ok row') body body') (i j : Nat) :
    valueAt (header.map headed :: body') i j ≠ valueAt (header :: body) i j ↔
      valueAt (header :: body) 0 j = some (.text "Status") ∧
        ∃ k row, i = k + 1 ∧ rows[k]? = some row ∧ Reworded row := by
  have hnames := valuesOf_header hholds Layout.isPlainName_of_mem
  have hstatus : valueAt (header :: body) 0 j = some (.text "Status") ↔ j = 3 := by
    show (valuesOf header)[j]? = _ ↔ _
    rw [hnames]
    exact status_position
  rw [columns_eq ((valuesOf_headed header).trans hnames) Layout.isPlainName_of_mem] at hbody
  rw [hstatus]
  cases i with
  | zero =>
    have hsame : valueAt (header.map headed :: body') 0 j = valueAt (header :: body) 0 j := by
      show (valuesOf (header.map headed))[j]? = (valuesOf header)[j]?
      rw [valuesOf_headed]
    simp [hsame]
  | succ k =>
    show (body'[k]?).bind (fun row => (valuesOf row)[j]?) ≠
      (body[k]?).bind (fun row => (valuesOf row)[j]?) ↔ _
    cases hrow : rows[k]? with
    | none =>
      have hle : body.length ≤ k := hholds.body.length_eq ▸ List.getElem?_eq_none_iff.mp hrow
      have hle' : body'.length ≤ k := hbody.length_eq ▸ hle
      rw [List.getElem?_eq_none_iff.mpr hle, List.getElem?_eq_none_iff.mpr hle']
      simp [hrow]
    | some row =>
      obtain ⟨r, rfl⟩ := hrows row (List.mem_of_getElem? hrow)
      obtain ⟨cells, hcells, hwritten⟩ := exists_getElem?_of_forall₂ hholds.body hrow
      obtain ⟨cells', hcells', hstyled⟩ := exists_getElem?_of_forall₂ hbody hcells
      rw [hcells, hcells', Option.bind_some, Option.bind_some,
        layoutRow_changes_iff hwritten hstyled]
      simp [hrow]

/-- **What styling changes.** Whatever an audit finds, its sheet is styled without a fault once it has
been written, and a value differs afterwards exactly if it is the status in a row of layouts that is
reworded. -/
theorem styling_changes_iff {debug : Bool} {a : Audit} {m : Material} {found : Findings}
    {taken : List String} {title : String} {page : Page}
    (hfound : auditOf debug a m = .ok found)
    (hpage : writePage taken title found.rows = (page, none)) :
    ∃ page', page.format (formatOf debug a) = .ok page' ∧
      ∀ i j, valueAt page'.cells i j ≠ valueAt (filledUp page.cells) i j ↔
        a = .layouts ∧ valueAt (filledUp page.cells) 0 j = some (.text "Status") ∧
          ∃ k row, i = k + 1 ∧ found.rows[k]? = some row ∧ Reworded row := by
  have hcells := writeCells_of_writePage hpage
  obtain ⟨header, body, hfilled⟩ := exists_filledUp page.cells
  obtain ⟨page', body', hformat, hcells', hbody⟩ := exists_format (f := formatOf debug a) rfl hfilled
    (exists_styleRow_of_audit hfound hcells hfilled)
  refine ⟨page', hformat, ?_⟩
  rw [hcells', hfilled]
  intro i j
  by_cases ha : a = .layouts
  · subst ha
    obtain rfl := Except.ok.inj hfound
    by_cases hrows : (Layout.audit m.text).rows = []
    · -- an empty page has no column for the status, and no row is reworded
      rw [hrows] at hcells
      rw [← (Prod.mk.inj hcells).1] at hfilled
      obtain ⟨rfl, rfl⟩ := List.cons.inj hfilled
      have hsame := valueAt_congr (valuesOf_headed [{}])
        (hbody.imp fun row row' h => valuesOf_styleRow_of_no_status rfl h) i j
      rw [hsame]
      simp [hrows]
    · have hholds := holds_of_filledUp hcells hrows (Layout.columnsOf_audit hrows)
        (List.cons_ne_nil _ _) hfilled
      rw [layoutSheet_changes_iff hholds (fun row => Layout.exists_cells_of_mem_audit) hbody]
      simp
  · have hsame := valueAt_congr (valuesOf_headed header)
      (hbody.imp fun row row' h => valuesOf_styleRow ha h) i j
    rw [hsame]
    simp [ha]

/-- A report with one layout, which is in a folder for deletion and to which nothing leads. -/
def shelvedReport : String :=
  "<F><LayoutCatalog><Group name='To delete'><Layout id='1' name='L'/></Group></LayoutCatalog>" ++
  "<Layout id='1' name='L'/></F>"

def shelvedTree : Node :=
  plain "F" []
    [plain "LayoutCatalog" []
      [plain "Group" [("name", "To delete")] [plain "Layout" [("id", "1"), ("name", "L")] []]],
     plain "Layout" [("id", "1"), ("name", "L")] []]

set_option maxRecDepth 20000 in
theorem read_shelved : read shelvedReport = .ok (some shelvedTree) :=
  (read_eq_of_toList (toList_two _ _) (by decide) (by rfl) (by rfl)).trans (by rfl)

/-- What a run works with for `shelvedReport`. -/
def shelvedMaterial : Material :=
  ⟨shelvedReport, some shelvedTree, ⟨Catalog.build (Site.root shelvedTree), []⟩⟩

theorem rows_shelved :
    (Layout.audit shelvedReport).rows = [Layout.Row.cells ⟨"L", "To delete", []⟩] := by
  unfold Layout.audit
  rw [openDocument_of_read read_shelved "find"]
  decide +kernel

/-- The page that is written for `shelvedReport`. -/
def shelvedPage : Page :=
  (writePage [] "Layout Usage" [Layout.Row.cells ⟨"L", "To delete", []⟩]).1

theorem values_shelved : (filledUp shelvedPage.cells).map valuesOf =
    [Layout.columnNames.map .text,
     [.text "L", .text "To delete", .whole 0, .text "⚠️ In Delete Folder", .empty, .empty, .empty,
      .empty]] := by
  decide +kernel

/-- In the sheet of `shelvedReport` the status loses its warning sign, and nothing else is changed. -/
theorem shelved_status_changed :
    writePage [] "Layout Usage" (Layout.audit shelvedReport).rows = (shelvedPage, none) ∧
    valueAt (filledUp shelvedPage.cells) 1 3 = some (.text "⚠️ In Delete Folder") ∧
    ∃ page', shelvedPage.format (formatOf false .layouts) = .ok page' ∧
      valueAt page'.cells 1 3 ≠ some (.text "⚠️ In Delete Folder") ∧
      ∀ j ≠ 3, valueAt page'.cells 1 j = valueAt (filledUp shelvedPage.cells) 1 j := by
  have hpage : writePage [] "Layout Usage" (Layout.audit shelvedReport).rows =
      (shelvedPage, none) := by
    rw [rows_shelved]
    refine Prod.ext rfl ?_
    decide +kernel
  have hstatus : valueAt (filledUp shelvedPage.cells) 1 3 = some (.text "⚠️ In Delete Folder") := by
    rw [valueAt_eq, values_shelved]
    rfl
  have hcolumn : ∀ j, valueAt (filledUp shelvedPage.cells) 0 j = some (.text "Status") ↔ j = 3 := by
    intro j
    rw [valueAt_eq, values_shelved]
    exact status_position
  obtain ⟨page', hformat, hchanges⟩ := styling_changes_iff
    (show auditOf false .layouts shelvedMaterial = .ok (Layout.audit shelvedReport) from rfl) hpage
  have hreworded : Reworded (Layout.Row.cells ⟨"L", "To delete", []⟩) :=
    reworded_cells_iff.mpr ⟨by decide +kernel, .inl rfl⟩
  refine ⟨hpage, hstatus, page', hformat, ?_, ?_⟩
  · rw [← hstatus]
    exact (hchanges 1 3).mpr
      ⟨rfl, (hcolumn 3).mpr rfl, 0, _, rfl, by rw [rows_shelved]; rfl, hreworded⟩
  · intro j hne
    by_contra hchanged
    exact hne ((hcolumn j).mp ((hchanges 1 j).mp hchanged).2.1)

end Run

end DesignAudit
