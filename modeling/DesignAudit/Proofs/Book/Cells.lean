import DesignAudit.Book.Page
import DesignAudit.Proofs.Register
import DesignAudit.Proofs.Sheet.Strokes

/-!
# What a page holds

A page that was written without a fault holds a header with the columns of its rows, and below it one
row for each of them, with every value as a cell can hold it (`holds_writeCells`). Rows that name the
same columns give these columns (`columnsOf_eq`).
-/

namespace DesignAudit.Book

open Sheet Text Traversal

/-- Cells that hold a header with names, and below it one row of values for each of some rows. -/
structure Holds (names : List String) (rows : List Row) (header : List Styled)
    (body : List (List Styled)) : Prop where
  header : List.Forall₂ (fun n c => written? (.text n) = some c) names (valuesOf header)
  body : List.Forall₂ (fun r row => List.Forall₂
    (fun n c => written? ((r.lookup n).getD .empty) = some c) names (valuesOf row)) rows body

/-! ## Writing -/

theorem forall₂_writtenPart {α β : Type} {f : α → Option β} {xs : List α} {ys : List β}
    (h : writtenPart f xs = (ys, true)) : List.Forall₂ (fun x y => f x = some y) xs ys := by
  induction xs generalizing ys with
  | nil =>
    obtain rfl := (Prod.mk.inj h).1
    exact .nil
  | cons x rest ih =>
    unfold writtenPart at h
    split at h
    · cases h
    · rename_i b hb
      obtain ⟨rfl, hwhole⟩ := Prod.mk.inj h
      exact .cons hb (ih (Prod.ext rfl hwhole))

theorem forall₂_writtenColumns {xss yss : List (List Cell)} (h : writtenColumns xss = (yss, true)) :
    List.Forall₂ (List.Forall₂ fun x y => written? x = some y) xss yss := by
  induction xss generalizing yss with
  | nil =>
    obtain rfl := (Prod.mk.inj h).1
    exact .nil
  | cons xs rest ih =>
    unfold writtenColumns at h
    split at h
    · cases h
    · rename_i cells hcells
      obtain ⟨rfl, hwhole⟩ := Prod.mk.inj h
      exact .cons (forall₂_writtenPart hcells) (ih (Prod.ext rfl hwhole))

theorem foldl_max_eq {n : Nat} {xs : List Nat} (h : ∀ x ∈ xs, x = n) (hne : xs ≠ []) :
    xs.foldl max 0 = n := by
  have hmax : ∀ m ≤ n, ∀ ys : List Nat, (∀ y ∈ ys, y = n) → ys ≠ [] → ys.foldl max m = n := by
    intro m hm ys hys hne
    induction ys generalizing m with
    | nil => exact absurd rfl hne
    | cons y rest ih =>
      obtain rfl := hys y List.mem_cons_self
      rw [List.foldl_cons, Nat.max_eq_right hm]
      cases rest with
      | nil => rfl
      | cons z rest =>
        exact ih y (Nat.le_refl y) (fun w hw => hys w (List.mem_cons_of_mem y hw)) (List.cons_ne_nil z rest)
  exact hmax 0 (Nat.zero_le n) xs h hne

variable {columns : List (List Cell)} {body : List (List Styled)} {rows : List Row}
  {names : List String} {header : List Styled}

/-- Columns of one length give as many rows. -/
theorem length_rowsOf {height : Nat} (hne : columns ≠ [])
    (hlength : ∀ c ∈ columns, c.length = height) (width : Nat) :
    (rowsOf width columns).length = height := by
  have hheight : Grid.width columns = height := by
    unfold Grid.width
    apply foldl_max_eq
    · intro x hx
      obtain ⟨c, hc, rfl⟩ := List.mem_map.mp hx
      exact hlength c hc
    · simpa using hne
  rw [rowsOf, List.length_map, List.length_range, hheight]

/-- A row of columns has a value from each of the columns. -/
theorem forall₂_rowsOf {i : Nat} {row : List Styled}
    (hrow : (rowsOf columns.length columns)[i]? = some row)
    (hi : ∀ column ∈ columns, i < column.length) :
    List.Forall₂ (fun (column : List Cell) c => column[i]? = some c) columns (valuesOf row) := by
  rw [rowsOf, List.getElem?_map, Option.map_eq_some_iff] at hrow
  obtain ⟨k, hk, rfl⟩ := hrow
  obtain ⟨-, rfl⟩ := List.getElem?_eq_some_iff.mp hk
  rw [List.forall₂_iff_get]
  refine ⟨by simp [valuesOf], ?_⟩
  intro j hj hj'
  have hlt := hi columns[j] (List.getElem_mem hj)
  simp [valuesOf, hj, hlt]

/-- Columns that are written for rows, one for each name, turned into rows again. -/
theorem forall₂_rowsOf_columns (hne : names ≠ []) (h : List.Forall₂ (fun n column => List.Forall₂
      (fun r c => written? ((List.lookup n r).getD .empty) = some c) rows column) names columns) :
    List.Forall₂ (fun r row => List.Forall₂
      (fun n c => written? ((List.lookup n r).getD .empty) = some c) names (valuesOf row))
      rows (rowsOf names.length columns) := by
  have hlength : ∀ c ∈ columns, c.length = rows.length := by
    intro c hc
    obtain ⟨n, -, hn⟩ := exists_mem_of_forall₂ h.flip hc
    exact hn.length_eq.symm
  have hcolumns : columns ≠ [] := by
    intro hnil
    rw [hnil] at h
    exact hne (List.forall₂_nil_right_iff.mp h)
  rw [h.length_eq, List.forall₂_iff_get]
  refine ⟨(length_rowsOf hcolumns hlength _).symm, ?_⟩
  intro i hi hi'
  have hrow := forall₂_rowsOf (List.getElem?_eq_getElem hi') fun c hc => by
    rw [hlength c hc]
    exact hi
  refine forall₂_trans ?_ h hrow
  intro n column c hcolumn hc
  obtain ⟨d, hd, hwritten⟩ := exists_getElem?_of_forall₂ hcolumn (List.getElem?_eq_getElem hi)
  obtain rfl := Option.some.inj (hd.symm.trans hc)
  exact hwritten

/-- A page that is written without a fault holds its rows under the names of their columns. -/
theorem holds_writeCells {cells : List (List Styled)}
    (h : writeCells rows = (cells, true)) (hne : columnsOf rows ≠ []) :
    ∃ header body, cells = header :: body ∧ Holds (columnsOf rows) rows header body := by
  unfold writeCells at h
  rw [if_neg (by simpa using hne)] at h
  split at h
  · cases (Prod.mk.inj h).2
  · rename_i names hnames
    obtain ⟨rfl, hwhole⟩ := Prod.mk.inj h
    refine ⟨_, _, rfl, ?_, forall₂_rowsOf_columns hne ?_⟩
    · have hvalues : valuesOf (names.map headerCell) = names := by
        rw [valuesOf, List.map_map]
        exact List.map_id names
      rw [hvalues]
      exact List.forall₂_map_left_iff.mp (forall₂_writtenPart hnames)
    · have hcolumns := forall₂_writtenColumns (Prod.ext rfl hwhole)
      simpa only [List.forall₂_map_left_iff] using hcolumns

/-! ## Columns -/

/-- Rows that name the same columns have these columns. -/
theorem columnsOf_eq (hne : rows ≠ [])
    (h : ∀ r ∈ rows, r.map (·.1) = names) : columnsOf rows = names := by
  have hkept : ∀ rest : List Row, (∀ r ∈ rest, r.map (·.1) = names) →
      rest.foldl (fun seen r => seen ++ (r.map (·.1)).filter fun c => !seen.contains c) names =
        names := by
    intro rest hrest
    induction rest with
    | nil => rfl
    | cons r rest ih =>
      have hnone : (names.filter fun c => !names.contains c) = [] := by
        simp
      rw [List.foldl_cons, hrest r List.mem_cons_self, hnone, List.append_nil]
      exact ih fun s hs => hrest s (List.mem_cons_of_mem r hs)
  cases rows with
  | nil => exact absurd rfl hne
  | cons r rest =>
    rw [columnsOf, List.foldl_cons, h r List.mem_cons_self]
    have hall : (names.filter fun c => !([] : List String).contains c) = names := by
      simp
    rw [List.nil_append, hall]
    exact hkept rest fun s hs => h s (List.mem_cons_of_mem r hs)

/-- A name that a cell holds as it is. -/
def IsPlainName (n : String) : Prop := n ≠ "" ∧ written? (.text n) = some (.text n)

instance (n : String) : Decidable (IsPlainName n) :=
  inferInstanceAs (Decidable (n ≠ "" ∧ written? (.text n) = some (.text n)))

theorem valuesOf_header (h : Holds names rows header body)
    (hplain : ∀ n ∈ names, IsPlainName n) : valuesOf header = names.map .text := by
  have hheader := h.header
  generalize valuesOf header = cells at hheader
  clear h
  induction hheader with
  | nil => rfl
  | @cons n c names cells hc _ ih =>
    have hn := (hplain n List.mem_cons_self).2
    rw [Option.some.inj (hc.symm.trans hn), List.map_cons,
      ih fun m hm => hplain m (List.mem_cons_of_mem n hm)]

/-- The positions of the columns follow from the names in the header. -/
theorem columns_eq {rest : List (List Styled)}
    (h : valuesOf header = names.map .text) (hplain : ∀ n ∈ names, IsPlainName n) :
    Grid.columns ⟨header :: rest⟩ = .ofList names.zipIdx := by
  unfold Grid.columns
  congr 1
  show header.zipIdx.filterMap _ = names.zipIdx
  generalize 0 = start
  induction names generalizing header start with
  | nil =>
    obtain rfl := List.map_eq_nil_iff.mp h
    rfl
  | cons n names ih =>
    cases header with
    | nil => cases h
    | cons c header =>
      obtain ⟨hc, hrest⟩ := List.cons.inj h
      have hn := (hplain n List.mem_cons_self).1
      rw [List.zipIdx_cons, List.zipIdx_cons, List.filterMap_cons_some (b := (n, start)),
        ih hrest fun m hm => hplain m (List.mem_cons_of_mem n hm)]
      simp [hc, hn]

/-! ## Pages -/

def valueAt (cells : List (List Styled)) (i j : Nat) : Option Cell :=
  (cells[i]?).bind fun row => (valuesOf row)[j]?

theorem valueAt_eq (cells : List (List Styled)) (i j : Nat) :
    valueAt cells i j = ((cells.map valuesOf)[i]?).bind (·[j]?) := by
  rw [valueAt, List.getElem?_map, Option.bind_map]
  rfl

theorem valueAt_congr {header header' : List Styled} {body body' : List (List Styled)}
    (hheader : valuesOf header' = valuesOf header)
    (hbody : List.Forall₂ (fun row row' => valuesOf row' = valuesOf row) body body') (i j : Nat) :
    valueAt (header' :: body') i j = valueAt (header :: body) i j := by
  cases i with
  | zero =>
    show (valuesOf header')[j]? = (valuesOf header)[j]?
    rw [hheader]
  | succ k =>
    show (body'[k]?).bind _ = (body[k]?).bind _
    cases hrow : body[k]? with
    | none =>
      have hlt : body'.length ≤ k := hbody.length_eq ▸ List.getElem?_eq_none_iff.mp hrow
      rw [List.getElem?_eq_none_iff.mpr hlt]
    | some row =>
      obtain ⟨row', hrow', hvalues⟩ := exists_getElem?_of_forall₂ hbody hrow
      rw [hrow', Option.bind_some, Option.bind_some, hvalues]

theorem writeCells_of_writePage {taken : List String} {title : String}
    {page : Page} (h : writePage taken title rows = (page, none)) :
    writeCells rows = (page.cells, true) := by
  unfold writePage at h
  dsimp only at h
  split at h
  · cases (Prod.mk.inj h).2
  · split at h
    · cases (Prod.mk.inj h).2
    · obtain ⟨rfl, hfault⟩ := Prod.mk.inj h
      refine Prod.ext rfl ?_
      by_cases hwhole : (writeCells rows).2 = true
      · exact hwhole
      · rw [if_neg hwhole] at hfault
        cases hfault

theorem exists_filledUp (cells : List (List Styled)) :
    ∃ header body, filledUp cells = header :: body := by
  cases cells with
  | nil => exact ⟨_, _, rfl⟩
  | cons header body =>
    cases body with
    | nil => exact ⟨_, _, rfl⟩
    | cons row rest => exact ⟨_, _, rfl⟩

/-- What is laid out for a page with rows is what was written for them. -/
theorem holds_of_filledUp {cells : List (List Styled)} (h : writeCells rows = (cells, true))
    (hrows : rows ≠ []) (hcolumns : columnsOf rows = names) (hne : names ≠ [])
    (hfilled : filledUp cells = header :: body) : Holds names rows header body := by
  subst hcolumns
  obtain ⟨header', body', rfl, hholds⟩ := holds_writeCells h hne
  cases body' with
  | nil => exact absurd (List.forall₂_nil_right_iff.mp hholds.body) hrows
  | cons row rest =>
    -- nothing is filled up on a page that has a row
    obtain ⟨rfl, rfl⟩ := List.cons.inj hfilled
    exact hholds

/-- The value that a row of a page has in a column is what was written for it. -/
theorem exists_get?_of_holds {r : Row} {row : List Styled}
    {columns : Register Nat} {column : String} {i : Nat}
    (hrow : List.Forall₂ (fun n c => written? ((List.lookup n r).getD .empty) = some c) names
      (valuesOf row)) (hcolumn : columns.get? column = some i) (hname : names[i]? = some column) :
    ∃ c, Values.get? ⟨columns, row⟩ column = some c ∧ (valuesOf row)[i]? = some c ∧
      written? ((List.lookup column r).getD .empty) = some c := by
  obtain ⟨c, hc, hwritten⟩ := exists_getElem?_of_forall₂ hrow hname
  refine ⟨c, ?_, hc, hwritten⟩
  rw [Values.get?_eq, hcolumn, Option.bind_some, hc]

theorem eq_empty_or_text_of_written {s : String} {c : Cell} (h : written? (.text s) = some c) :
    c = .empty ∧ keep cellLimit s = "" ∨ c = .text (keep cellLimit s) := by
  unfold written? at h
  dsimp only at h
  split at h
  · cases h
  · obtain rfl := Option.some.inj h
    by_cases hempty : keep cellLimit s = ""
    · simp [hempty]
    · simp [hempty]

/-- A text reads as far as a cell can hold it. -/
theorem text_eq_keep {v : Values} {column s : String} {c : Cell} (hget : v.get? column = some c)
    (h : written? (.text s) = some c) : v.text column = keep cellLimit s := by
  unfold Values.text
  rw [hget]
  obtain ⟨rfl, hempty⟩ | rfl := eq_empty_or_text_of_written h
  · exact hempty.symm
  · rfl

theorem valuesOf_headed (header : List Styled) :
    valuesOf (header.map headed) = valuesOf header := by
  unfold valuesOf
  rw [List.map_map]
  rfl

/-- A page is laid out if each of its rows can be styled, and then has the styled rows. -/
theorem exists_format {a : Audit} {f : Format} (hf : f.style = a.style) {page : Page}
    (hfilled : filledUp page.cells = header :: body) (hrows : ∀ row ∈ body,
      ∃ row', a.styleRow (Grid.columns ⟨header.map headed :: body⟩) row = .ok row') :
    ∃ page' body', page.format f = .ok page' ∧ page'.cells = header.map headed :: body' ∧
      List.Forall₂ (fun row row' =>
        a.styleRow (Grid.columns ⟨header.map headed :: body⟩) row = .ok row') body body' := by
  obtain ⟨body', hbody'⟩ := exists_mapM_eq_ok_iff.mpr hrows
  have hstyle : f.style ⟨header.map headed :: body⟩ = .ok ⟨header.map headed :: body'⟩ := by
    rw [hf]
    exact bind_eq_ok_iff.mpr ⟨body', hbody', rfl⟩
  unfold Page.format
  rw [hfilled]
  exact ⟨_, body', bind_eq_ok_iff.mpr ⟨_, hstyle, rfl⟩, rfl, mapM_eq_ok_iff.mp hbody'⟩

end DesignAudit.Book
