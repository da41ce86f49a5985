import DesignAudit.Layout.Audit
import DesignAudit.Proofs.Traversal
import DesignAudit.Sheet.Style

/-!
# What styling does to the values of a sheet

Filling and lettering leave the values of a row alone (`valuesOf_foldl_apply`), and the sheets of six
audits know no other strokes (`looks_strokes`). The sheet of layouts is the exception: for a layout in
a folder that is kept for deletion or debugging the status is written anew, as that of a layout in
use, with a warning sign only where the status said that the layout is not used
(`valuesOf_styleRow_layouts`).
-/

namespace DesignAudit.Sheet

open Layout Text Traversal

/-! ## Strokes that change the look only -/

def valuesOf (row : List Styled) : List Cell := row.map Styled.value

/-- Whether a stroke changes the look of a row only. -/
def Stroke.isLook : Stroke → Bool
  | .write _ _ => false
  | _ => true

/-- All of the strokes change the look only. -/
def Looks (strokes : List Stroke) : Prop := ∀ s ∈ strokes, s.isLook = true

theorem valuesOf_atColumn {f : Styled → Styled} (hf : ∀ c, (f c).value = c.value)
    (columns : Register Nat) (column : String) (row : List Styled) :
    valuesOf (atColumn columns column f row) = valuesOf row := by
  unfold atColumn
  split
  · rename_i i _
    apply List.ext_getElem?
    intro j
    rw [valuesOf, valuesOf, List.getElem?_map, List.getElem?_map, List.getElem?_modify]
    by_cases hij : i = j
    · cases row[j]? with
      | none => simp
      | some c => simp [hij, hf]
    · simp [hij]
  · rfl

theorem valuesOf_apply {s : Stroke} (h : s.isLook = true) (columns : Register Nat)
    (row : List Styled) : valuesOf (s.apply columns row) = valuesOf row := by
  cases s with
  | fillRow f =>
    show (row.map _).map Styled.value = row.map Styled.value
    rw [List.map_map]
    rfl
  | fill column f =>
    apply valuesOf_atColumn
    intro c
    rfl
  | letter column f =>
    apply valuesOf_atColumn
    intro c
    rfl
  | write column c => cases h

theorem Values.get?_eq (columns : Register Nat) (row : List Styled) (column : String) :
    Values.get? ⟨columns, row⟩ column =
      (columns.get? column).bind fun i => (valuesOf row)[i]? := by
  unfold Values.get? valuesOf
  simp only [List.getElem?_map]

variable {a : Audit} {strokes : List Stroke} {row row' : List Styled} {columns : Register Nat}
  {column : String} {v : Values}

/-- Strokes that change the look leave all values alone. -/
theorem valuesOf_foldl_apply (h : Looks strokes) (columns : Register Nat)
    (row : List Styled) : valuesOf (strokes.foldl (Stroke.apply columns) row) = valuesOf row := by
  induction strokes generalizing row with
  | nil => rfl
  | cons s rest ih =>
    rw [List.foldl_cons, ih fun t ht => h t (List.mem_cons_of_mem s ht)]
    exact valuesOf_apply (h s List.mem_cons_self) columns row

theorem looks_nil : Looks [] := fun _ h => absurd h List.not_mem_nil

theorem Looks.append {xs ys : List Stroke} (hx : Looks xs) (hy : Looks ys) : Looks (xs ++ ys) :=
  List.forall_mem_append.mpr ⟨hx, hy⟩

theorem Looks.ite {c : Prop} [Decidable c] {xs ys : List Stroke} (hx : Looks xs) (hy : Looks ys) :
    Looks (if c then xs else ys) := by
  split
  · exact hx
  · exact hy

theorem looks_letter (column : String) (f : Font) : Looks [.letter column f] :=
  List.forall_mem_singleton.mpr rfl

theorem looks_fill (column : String) (f : Fill) : Looks [.fill column f] :=
  List.forall_mem_singleton.mpr rfl

theorem looks_rowStrokes (p : Palette) (tone : Tone) (bold : List String) :
    Looks (rowStrokes p tone bold) := by
  unfold rowStrokes
  refine List.forall_mem_cons.mpr ⟨rfl, ?_⟩
  intro s hs
  obtain ⟨column, -, rfl⟩ := List.mem_map.mp hs
  rfl

theorem looks_cellStrokes (p : Palette) (tone : Tone) (column : String) :
    Looks (cellStrokes p tone column) :=
  (looks_fill column _).append (looks_letter column _)

theorem looks_countStrokes (p : Palette) (redIfNone : Bool) (column : String) (v : Values) :
    Looks (countStrokes p redIfNone column v) := by
  unfold countStrokes
  split
  · exact looks_letter column _
  · exact looks_nil

/-! ## The audits -/

theorem looks_functionStrokes (v : Values) : Looks (functionStrokes v) := by
  unfold functionStrokes
  apply Looks.append
  · exact (looks_rowStrokes _ _ _).ite looks_nil
  · exact looks_countStrokes _ _ _ v

theorem looks_fieldStrokes (v : Values) : Looks (fieldStrokes v) := by
  unfold fieldStrokes
  apply Looks.append
  · apply Looks.append
    · exact (looks_rowStrokes _ _ _).ite ((looks_rowStrokes _ _ _).ite looks_nil)
    · exact looks_countStrokes _ _ _ v
  · split
    · apply Looks.ite _ looks_nil
      exact ((looks_letter _ _).append (looks_fill _ _)).append
        ((looks_cellStrokes _ _ _).ite looks_nil)
    · exact looks_nil

theorem looks_scriptStrokes (v : Values) : Looks (scriptStrokes v) := by
  unfold scriptStrokes
  apply Looks.append
  · apply Looks.append
    · exact (looks_rowStrokes _ _ _).ite
        ((looks_rowStrokes _ _ _).ite ((looks_rowStrokes _ _ _).ite looks_nil))
    · split
      · exact ((looks_letter _ _).append (looks_fill _ _)).ite looks_nil
      · exact looks_nil
  · exact looks_countStrokes _ _ _ v

theorem looks_occurrenceStrokes (v : Values) : Looks (occurrenceStrokes v) := by
  unfold occurrenceStrokes
  apply Looks.append
  · exact (looks_rowStrokes _ _ _).ite looks_nil
  · exact ((looks_cellStrokes _ _ _).append (looks_letter _ _)).ite looks_nil

theorem looks_referenceStrokes (v : Values) : Looks (referenceStrokes v) := by
  unfold referenceStrokes
  refine Looks.append (Looks.append (Looks.append (Looks.append (Looks.append ?_ ?_)
    (looks_letter _ _)) ?_) ?_) (looks_letter _ _)
  · exact looks_nil.ite ((looks_rowStrokes _ _ _).ite (looks_letter _ _))
  · split
    · exact looks_nil.ite (looks_fill _ _)
    · exact looks_nil
  · split
    · exact looks_nil.ite ((looks_letter _ _).ite (looks_cellStrokes _ _ _))
    · exact looks_nil
  · exact (looks_letter _ _).ite looks_nil

theorem looks_missingStrokes {p : Palette}
    (h : missingStrokes p column v = .ok strokes) : Looks strokes := by
  unfold missingStrokes at h
  split at h
  · obtain rfl := Except.ok.inj h
    exact looks_nil
  · split at h
    · obtain rfl := Except.ok.inj h
      exact looks_nil
    · split at h
      · obtain rfl := Except.ok.inj h
        exact (looks_cellStrokes _ _ _).ite looks_nil
      · cases h

theorem looks_queryHeadStrokes (p : Palette) (v : Values) : Looks (queryHeadStrokes p v) := by
  unfold queryHeadStrokes
  apply Looks.append
  · split
    · exact looks_cellStrokes _ _ _
    · exact looks_cellStrokes _ _ _
    · exact looks_cellStrokes _ _ _
    · exact looks_nil
  · split
    · exact looks_fill _ _
    · exact looks_nil

theorem looks_queryBodyStrokes (p : Palette) (v : Values) : Looks (queryBodyStrokes p v) := by
  unfold queryBodyStrokes
  refine Looks.append (Looks.append (Looks.append ?_ ?_) ?_) ?_
  · exact ((looks_cellStrokes _ _ _).ite
      ((looks_cellStrokes _ _ _).ite (looks_letter _ _))).ite looks_nil
  · exact ((looks_cellStrokes _ _ _).ite (looks_letter _ _)).ite looks_nil
  · exact ((looks_letter _ _).append (looks_fill _ _)).ite looks_nil
  · exact ((looks_letter _ _).append ((looks_letter _ _).ite looks_nil)).ite looks_nil

theorem looks_queryStrokes (h : queryStrokes v = .ok strokes) : Looks strokes := by
  obtain ⟨tables, htables, h⟩ := bind_eq_ok_iff.mp h
  obtain ⟨fields, hfields, h⟩ := bind_eq_ok_iff.mp h
  rw [pure_eq_ok_iff] at h
  rw [← h]
  exact (((looks_queryHeadStrokes _ v).append (looks_missingStrokes htables)).append
    (looks_missingStrokes hfields)).append (looks_queryBodyStrokes _ v)

/-- Only the sheet of layouts has strokes that write. -/
theorem looks_strokes (ha : a ≠ .layouts) (h : a.strokes v = .ok strokes) : Looks strokes := by
  cases a with
  | functions => exact Except.ok.inj h ▸ looks_functionStrokes v
  | fields => exact Except.ok.inj h ▸ looks_fieldStrokes v
  | layouts => exact absurd rfl ha
  | queries => exact looks_queryStrokes h
  | scripts => exact Except.ok.inj h ▸ looks_scriptStrokes v
  | occurrences => exact Except.ok.inj h ▸ looks_occurrenceStrokes v
  | unknown => exact Except.ok.inj h ▸ looks_referenceStrokes v

theorem valuesOf_styleRow (ha : a ≠ .layouts) (h : a.styleRow columns row = .ok row') :
    valuesOf row' = valuesOf row := by
  obtain ⟨strokes, hstrokes, h⟩ := bind_eq_ok_iff.mp h
  rw [pure_eq_ok_iff] at h
  rw [← h]
  exact valuesOf_foldl_apply (looks_strokes ha hstrokes) columns row

/-! ## Layouts -/

/-- The status that the sheet of layouts shows for a layout in a folder of a kind, given the status
that the audit found. -/
def restated (status : String) (shelf : Shelf) : String :=
  (if has "NOT USED" status then "⚠️ " else "") ++ statusText 1 shelf

theorem looks_layoutStrokes (h : shelfOf (v.text "Path") = .ordinary) :
    Looks (layoutStrokes v) := by
  have hdelete : has "delete" (lower (v.text "Path")) = false := by
    rw [Bool.eq_false_iff]
    intro hdelete
    rw [shelfOf, if_pos hdelete] at h
    cases h
  have hdebug : has "debug" (lower (v.text "Path")) = false := by
    rw [Bool.eq_false_iff]
    intro hdebug
    rw [shelfOf, hdelete, if_pos hdebug] at h
    cases h
  unfold layoutStrokes
  apply Looks.append
  · rw [hdelete, hdebug]
    exact looks_nil.ite ((looks_rowStrokes _ _ _).ite looks_nil)
  · exact looks_countStrokes _ _ _ v

theorem exists_layoutStrokes_eq (hstatus : v.has "Status" = true)
    (h : shelfOf (v.text "Path") ≠ .ordinary) :
    ∃ looks, Looks looks ∧ layoutStrokes v =
      .write "Status" (.text (restated (v.text "Status") (shelfOf (v.text "Path")))) :: looks := by
  refine ⟨rowStrokes Palette.standard .warning ["Status", "Layout Name"] ++
    countStrokes Palette.standard true "Total Usage" v,
    (looks_rowStrokes _ _ _).append (looks_countStrokes _ _ _ v), ?_⟩
  unfold layoutStrokes restated shelfOf
  unfold shelfOf at h
  rw [hstatus]
  by_cases hdelete : has "delete" (lower (v.text "Path")) = true
  · simp [hdelete, statusText]
  · by_cases hdebug : has "debug" (lower (v.text "Path")) = true
    · simp [hdelete, hdebug, statusText]
    · exact absurd (by simp [hdelete, hdebug]) h

/-- Where there is no column for the status, nothing is written. -/
theorem valuesOf_styleRow_of_no_status (hstatus : columns.get? "Status" = none)
    (h : Audit.layouts.styleRow columns row = .ok row') : valuesOf row' = valuesOf row := by
  have hrow : (layoutStrokes ⟨columns, row⟩).foldl (Stroke.apply columns) row = row' :=
    Except.ok.inj h
  rw [← hrow]
  apply valuesOf_foldl_apply
  have hhas : Values.has ⟨columns, row⟩ "Status" = false := by
    rw [Values.has, Register.has, hstatus]
    rfl
  unfold layoutStrokes
  rw [hhas]
  exact looks_nil.append (looks_countStrokes _ _ _ _)

theorem valuesOf_write {i : Nat} (h : columns.get? column = some i) (c : Cell) (row : List Styled) :
    valuesOf (Stroke.apply columns row (.write column c)) = (valuesOf row).set i c := by
  show valuesOf (atColumn columns column _ row) = _
  rw [atColumn, h]
  apply List.ext_getElem?
  intro j
  rw [valuesOf, valuesOf, List.getElem?_map, List.getElem?_modify, List.getElem?_set,
    List.getElem?_map]
  by_cases hij : i = j
  · subst hij
    cases hrow : row[i]? with
    | none => simp [List.getElem?_eq_none_iff.mp hrow]
    | some d =>
      obtain ⟨hlt, -⟩ := List.getElem?_eq_some_iff.mp hrow
      simp [hlt]
  · simp [hij]

/-- A layout row is restated where its path is one of a folder for deletion or debugging; all other
values are kept. -/
theorem valuesOf_styleRow_layouts {i : Nat} (hstatus : columns.get? "Status" = some i)
    (h : Audit.layouts.styleRow columns row = .ok row') :
    valuesOf row' =
      if shelfOf (Values.text ⟨columns, row⟩ "Path") = .ordinary then valuesOf row
      else (valuesOf row).set i (.text (restated (Values.text ⟨columns, row⟩ "Status")
        (shelfOf (Values.text ⟨columns, row⟩ "Path")))) := by
  have hrow : (layoutStrokes ⟨columns, row⟩).foldl (Stroke.apply columns) row = row' :=
    Except.ok.inj h
  rw [← hrow]
  split
  · rename_i hordinary
    exact valuesOf_foldl_apply (looks_layoutStrokes hordinary) columns row
  · rename_i hkept
    have hhas : Values.has ⟨columns, row⟩ "Status" = true := by
      rw [Values.has, Register.has, hstatus]
      rfl
    obtain ⟨looks, hlooks, heq⟩ := exists_layoutStrokes_eq hhas hkept
    rw [heq, List.foldl_cons, valuesOf_foldl_apply hlooks, valuesOf_write hstatus]

/-! ## When styling ends without a fault -/

theorem exists_missingStrokes_eq_ok {p : Palette}
    (h : ∀ c, v.get? column = some c → c = .empty ∨ ∃ s, c = .text s) :
    ∃ strokes, missingStrokes p column v = .ok strokes := by
  unfold missingStrokes
  cases hget : v.get? column with
  | none => exact ⟨[], rfl⟩
  | some c =>
    obtain rfl | ⟨s, rfl⟩ := h c hget
    · exact ⟨[], rfl⟩
    · dsimp only
      split
      · exact ⟨_, rfl⟩
      · exact ⟨_, rfl⟩

/-- A row is styled without a fault unless it is one of queries, whose columns of missing names must
hold texts. -/
theorem exists_styleRow_eq_ok
    (h : a = .queries → ∀ column ∈ ["Missing Tables", "Missing Fields"], ∀ c,
      Values.get? ⟨columns, row⟩ column = some c → c = .empty ∨ ∃ s, c = .text s) :
    ∃ row', a.styleRow columns row = .ok row' := by
  have hstrokes : ∃ strokes, a.strokes ⟨columns, row⟩ = .ok strokes := by
    cases a with
    | queries =>
      have htexts := h rfl
      apply exists_bind_eq_ok (exists_missingStrokes_eq_ok (htexts _ (by simp)))
      intro tables
      apply exists_bind_eq_ok (exists_missingStrokes_eq_ok (htexts _ (by simp)))
      intro fields
      exact ⟨_, rfl⟩
    | _ => exact ⟨_, rfl⟩
  exact exists_bind_eq_ok hstrokes fun _ => ⟨_, rfl⟩

end DesignAudit.Sheet
