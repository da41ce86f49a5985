import DesignAudit.Proofs.Catalog.Tables
import DesignAudit.Proofs.FieldUse.Report
import DesignAudit.Proofs.Layout.Place
import DesignAudit.Proofs.Markup.Reader
import DesignAudit.Proofs.Text.Search
import Mathlib.Data.String.Basic

/-!
# The report on fields is complete

The audit of fields can end with a fault only where it reads the place of an object. Without an
infinite distance every layout is gone through to its end (`exists_usesOnLayouts_eq_ok`). The rows
are then those of the declared fields, whatever uses were found (`rowsOf_pairs_perm`), and they are
arranged by what their first columns tell (`Told`): by standing, table and field
(`arranged_pairwise`). `field_report_complete` puts this together, with the fields that the catalogue
knows.
-/

namespace DesignAudit.FieldUse

open Markup Text Catalog Layout
open Traversal

/-! ## Layouts -/

section Objects

variable {root object : Site} (s : Scope) (layout : String) (h : NoInfiniteBounds root)
  (hobject : object ∈ root.below)

include h hobject

theorem exists_placeholderObjectUses_eq_ok :
    ∃ uses, placeholderObjectUses s layout object = .ok uses := by
  obtain ⟨position, hposition⟩ := exists_positionText_eq_ok h hobject
  have hpure : positionText object = pure position := hposition
  rw [placeholderObjectUses, hpure]
  simp only [pure_bind]
  split
  · exact ⟨[], rfl⟩
  · -- the calculation adds uses, but cannot fail: both cases go on with the shown chunks
    split
    all_goals
      split
      · exact ⟨_, rfl⟩
      · refine exists_bind_eq_ok (exists_mapM_eq_ok_iff.mpr fun chunk _ => ?_) fun _ => ⟨_, rfl⟩
        split <;> exact ⟨_, rfl⟩

theorem exists_fieldObjectUses_eq_ok :
    ∃ uses, fieldObjectUses s layout object = .ok uses := by
  obtain ⟨placeholder, hplaceholder⟩ := exists_placeholderObjectUses_eq_ok s layout h hobject
  obtain ⟨position, hposition⟩ := exists_positionText_eq_ok h hobject
  rw [fieldObjectUses, hplaceholder, hposition]
  split
  · exact ⟨placeholder, rfl⟩
  · split
    · exact ⟨[], rfl⟩
    · exact ⟨_, rfl⟩

theorem exists_portalFieldUses_eq_ok (position table : String) :
    ∃ uses, portalFieldUses s layout position table object = .ok uses := by
  rw [portalFieldUses]
  split
  · exact ⟨[], rfl⟩
  · dsimp only
    split
    · exact ⟨[], rfl⟩
    · split
      · exact ⟨_, rfl⟩
      · rename_i b hb
        refine exists_bind_eq_ok (exists_corner?_eq_ok h (bounds_mem hobject hb)) fun corner => ?_
        split <;> exact ⟨_, rfl⟩

theorem exists_portalUses_eq_ok :
    ∃ uses, portalUses s layout object = .ok uses := by
  obtain ⟨position, hposition⟩ := exists_positionText_eq_ok h hobject
  rw [portalUses, hposition]
  split
  · exact ⟨[], rfl⟩
  · rename_i portal _
    refine exists_bind_eq_ok ⟨position, rfl⟩ fun position => ?_
    dsimp only
    split
    · exact ⟨[], rfl⟩
    · have hfields : ∀ field ∈ objectsOf object "Field", ∃ uses,
          portalFieldUses s layout position (portal.node.attr "table") field = .ok uses :=
        fun field hfield => exists_portalFieldUses_eq_ok s layout h
          (Site.below_trans hobject (Site.mem_below_of_mem_allWith hfield)) _ _
      exact exists_bind_eq_ok (exists_mapM_eq_ok_iff.mpr hfields) fun fields => ⟨_, rfl⟩

theorem exists_panelUses_eq_ok (site : Site) (type part unnamed label : String) :
    ∃ uses, panelUses s site layout type part unnamed label object = .ok uses := by
  obtain ⟨position, hposition⟩ := exists_positionText_eq_ok h hobject
  rw [panelUses, hposition]
  exact ⟨_, rfl⟩

/-- The kinds of objects whose uses depend on the object and its place alone. -/
theorem exists_kindUses_eq_ok :
    ∀ kind ∈ [webViewerUses, buttonUses, textObjectUses, conditionUses, hideUses, barUses,
      popoverUses, chartUses], ∃ uses, kind s layout object = .ok uses := by
  obtain ⟨position, hposition⟩ := exists_positionText_eq_ok h hobject
  intro kind hkind
  simp only [List.mem_cons, List.not_mem_nil, or_false] at hkind
  rcases hkind with rfl | rfl | rfl | rfl | rfl | rfl | rfl | rfl
  · rw [webViewerUses, hposition]
    split <;> exact ⟨_, rfl⟩
  · rw [buttonUses, hposition]
    exact ⟨_, rfl⟩
  · rw [textObjectUses, hposition]
    exact ⟨_, rfl⟩
  · rw [conditionUses, hposition]
    split <;> exact ⟨_, rfl⟩
  · rw [hideUses, hposition]
    split <;> exact ⟨_, rfl⟩
  · rw [barUses, hposition]
    exact ⟨_, rfl⟩
  · rw [popoverUses, hposition]
    exact ⟨_, rfl⟩
  · rw [chartUses, hposition]
    split <;> exact ⟨_, rfl⟩

end Objects

/-- The objects of each kind lie on the layout, and their uses are found. -/
theorem exists_uses_of_mem_objectKinds (s : Scope) {root layout : Site} (h : NoInfiniteBounds root)
    (hlayout : layout ∈ root.below) :
    ∀ kind ∈ objectKinds s layout, ∀ object ∈ kind.1, ∃ uses, kind.2 object = .ok uses := by
  have htyped : ∀ type, ∀ object ∈ objectsOf layout type, object ∈ root.below :=
    fun type object hobject => Site.below_trans hlayout (Site.mem_below_of_mem_allWith hobject)
  have hall : ∀ object ∈ layout.all "Object", object ∈ root.below :=
    fun object hobject => Site.below_trans hlayout (Site.mem_all.mp hobject).1
  have hkind := fun object (hobject : object ∈ root.below) =>
    exists_kindUses_eq_ok s (layoutName layout) h hobject
  have hpanel := fun object (hobject : object ∈ root.below) =>
    exists_panelUses_eq_ok s (layoutName layout) h hobject
  simp only [objectKinds, fieldKinds, controlKinds, furtherKinds, List.forall_mem_append,
    List.forall_mem_cons, List.not_mem_nil, false_imp_iff, implies_true, and_true]
  exact ⟨⟨⟨fun o ho => exists_fieldObjectUses_eq_ok s _ h (htyped _ o ho),
      fun o ho => exists_portalUses_eq_ok s _ h (htyped _ o ho)⟩,
    fun o ho => hkind o (htyped _ o ho) _ (by simp),
    fun o ho => hkind o (htyped _ o ho) _ (by simp)⟩,
    fun o ho => hkind o (htyped _ o ho) _ (by simp), fun o ho => hkind o (hall o ho) _ (by simp),
    fun o ho => hkind o (hall o ho) _ (by simp),
    fun o ho => hpanel o (htyped _ o ho) _ _ _ _ _, fun o ho => hpanel o (htyped _ o ho) _ _ _ _ _,
    fun o ho => hkind o (htyped _ o ho) _ (by simp),
    fun o ho => hkind o (htyped _ o ho) _ (by simp), fun o ho => hkind o (hall o ho) _ (by simp)⟩

theorem exists_layoutUses_eq_ok (s : Scope) {root layout : Site} (h : NoInfiniteBounds root)
    (hlayout : layout ∈ root.below) : ∃ uses, layoutUses s layout = .ok uses := by
  refine exists_bind_eq_ok (exists_mapM_eq_ok_iff.mpr fun kind hkind => ?_) fun _ => ⟨_, rfl⟩
  exact exists_bind_eq_ok
    (exists_mapM_eq_ok_iff.mpr (exists_uses_of_mem_objectKinds s h hlayout kind hkind))
    fun _ => ⟨_, rfl⟩

/-- The uses on layouts are found whenever no distance is infinite. -/
theorem exists_usesOnLayouts_eq_ok (s : Scope) {root : Site} (h : NoInfiniteBounds root) :
    ∃ uses, usesOnLayouts s root = .ok uses := by
  refine exists_bind_eq_ok (exists_mapM_eq_ok_iff.mpr fun layout hlayout => ?_) fun _ => ⟨_, rfl⟩
  exact exists_layoutUses_eq_ok s h (Site.mem_all.mp hlayout).1

/-! ## The log -/

/-- The openings of the lines that an audit writes while nothing fails. -/
def openings : List String := ["Starting", "  ", "Final", "Columns"]

def opens (line : String) : Bool := openings.any (beginsWith · line)

theorem opens_append {line : String} (h : opens line = true) (rest : String) :
    opens (line ++ rest) = true :=
  opensWith_append h rest

theorem not_fault_of_opens {line : String} (h : opens line = true) :
    beginsWith "Error in UnusedFieldsCheck: " line = false :=
  beginsWith_eq_false_of_opensWith (by decide) h

theorem opens_of_mem_log {raw : String} {root : Site} {uses : List Use}
    (hopen : openDocument "findall" raw = .ok root)
    (hlayouts : usesOnLayouts (scopeAt root) root = .ok uses) :
    ∀ line ∈ (audit raw).log, opens line = true := by
  have hfound : ∀ table, opens ("    Found table: " ++ table) = true := opens_append (by decide)
  have htotal : ∀ fields tables : Nat,
      opens s!"  Found {fields} fields in {tables} tables" = true := fun fields tables =>
    opens_append (opens_append (opens_append (opens_append (by decide) _) _) _) _
  have hfinal : ∀ rows : Nat, opens s!"Final result has {rows} rows" = true := fun rows =>
    opens_append (opens_append (by decide) _) _
  have hcolumns : ∀ columns, opens ("Columns in first row: " ++ columns) = true :=
    opens_append (by decide)
  rw [scopeAt, fieldsAt] at hlayouts
  simp only [audit, hopen, hlayouts]
  split
  · simp only [List.forall_mem_append, List.forall_mem_cons, List.forall_mem_map, hfound, htotal,
      implies_true]
    decide
  · split
    all_goals
      simp only [List.forall_mem_append, List.forall_mem_cons, List.forall_mem_map, hfound, htotal,
        hfinal, hcolumns, implies_true]
      decide

/-! ## The rows -/

/-- The rows are those of the declared fields, in another order. -/
theorem rowsOf_perm (fields : Fields) (text : List Char) (uses : List Use) :
    (rowsOf fields text uses).Perm (fields.pairs.map fun p =>
      rowOf (cachedKeys fields) (occurrenceCounts fields text) uses p.1 p.2) := by
  rw [rowsOf, Fields.pairs, List.map_flatMap]
  refine (sortBy_perm _ _).flatMap fun e _ => ?_
  rw [List.map_map]
  exact (sortBy_perm id e.2.names).map _

theorem rowsOf_pairs_perm (fields : Fields) (text : List Char) (uses : List Use) :
    ((rowsOf fields text uses).map fun r => (r.table, r.field)).Perm fields.pairs := by
  refine ((rowsOf_perm fields text uses).map _).trans (.of_eq ?_)
  rw [List.map_map]
  exact List.map_id _

theorem arranged_perm (rows : List Row) : (arranged rows).Perm rows :=
  ((sortBy_perm _ _).trans (sortBy_perm _ _)).trans (sortBy_perm _ _)

/-- What the first columns of a row tell. -/
@[ext]
structure Told where
  table : String
  field : String
  status : String
  deriving DecidableEq

/-- A row has in its first columns what it tells. -/
def Told.In (t : Told) (row : Sheet.Row) : Prop :=
  row.lookup "Table Name" = some (.text t.table) ∧ row.lookup "Field Name" = some (.text t.field) ∧
    row.lookup "Status" = some (.text t.status)

def Row.told (r : Row) : Told := ⟨r.table, r.field, r.status.text⟩

theorem told_in_cells (r : Row) : r.told.In r.cells := ⟨rfl, rfl, rfl⟩

theorem forall₂_told_cells (rows : List Row) :
    List.Forall₂ Told.In (rows.map Row.told) (rows.map Row.cells) := by
  rw [List.forall₂_map_left_iff, List.forall₂_map_right_iff]
  exact List.forall₂_same.mpr fun r _ => told_in_cells r

/-- A row tells one thing only. -/
theorem told_unique {told told' : List Told} {rows : List Sheet.Row}
    (h : List.Forall₂ Told.In told rows) (h' : List.Forall₂ Told.In told' rows) : told = told' := by
  refine List.left_unique_forall₂' (fun a b row ha hb => ?_) h h'
  have hcell : ∀ {x : Option Sheet.Cell} {s t : String}, x = some (.text s) → x = some (.text t) →
      s = t := by
    intro x s t hs ht
    rwa [hs, Option.some_inj, Sheet.Cell.text.injEq] at ht
  exact Told.ext (hcell ha.1 hb.1) (hcell ha.2.1 hb.2.1) (hcell ha.2.2 hb.2.2)

/-- The statuses of fields, in the order of the report. -/
def standings : List String := ["Not Used", "Cached", "System", "Comment", "Imported", "Used"]

theorem text_mem_standings (status : Status) : status.text ∈ standings := by
  cases status <;> decide

theorem idxOf_standings (status : Status) : standings.idxOf status.text = status.rank := by
  cases status <;> decide

/-- A row stands before another one or level with it: by standing, then by table, then by field, both
in small letters. -/
def Told.NotAfter (a b : Told) : Prop :=
  standings.idxOf a.status < standings.idxOf b.status ∨ a.status = b.status ∧
    (lower a.table < lower b.table ∨ lower a.table = lower b.table ∧
      lower a.field ≤ lower b.field)

instance (a b : Told) : Decidable (a.NotAfter b) :=
  inferInstanceAs (Decidable (_ ∨ _))

theorem arranged_pairwise (rows : List Row) :
    ((arranged rows).map Row.told).Pairwise Told.NotAfter := by
  have hfield := sortBy_pairwise_then (fun r : Row => lower r.field)
    (List.pairwise_of_forall (l := rows) fun _ _ => trivial)
  have htable := sortBy_pairwise_then (fun r : Row => lower r.table) hfield
  have hstatus := sortBy_pairwise_then (fun r : Row => r.status.rank) htable
  rw [List.pairwise_map]
  refine hstatus.imp fun {a b} h => ?_
  simp only [compare_lt_iff_lt, compare_eq_iff_eq, and_true, ← idxOf_standings] at h
  rw [Told.NotAfter, le_iff_lt_or_eq]
  exact h.imp_right fun ⟨hsame, h⟩ => ⟨(List.idxOf_inj (text_mem_standings a.status)).mp hsame, h⟩

/-- The rows of an audit that completes, also where no field is declared. -/
theorem audit_rows_eq {raw : String} {root : Site} {uses : List Use}
    (hopen : openDocument "findall" raw = .ok root)
    (hlayouts : usesOnLayouts (scopeAt root) root = .ok uses) :
    (audit raw).rows =
      (arranged (rowsOf (fieldsAt root) raw.toList (uses ++ otherUses (scopeAt root) root))).map
        Row.cells := by
  by_cases hcount : (fieldsAt root).count = 0
  · have hpairs : (fieldsAt root).pairs = [] :=
      List.eq_nil_of_length_eq_zero (length_pairs _ ▸ hcount)
    have hrows := rowsOf_pairs_perm (fieldsAt root) raw.toList
      (uses ++ otherUses (scopeAt root) root)
    rw [hpairs] at hrows
    rw [List.map_eq_nil_iff.mp hrows.eq_nil, (arranged_perm []).eq_nil, List.map_nil]
    rw [fieldsAt] at hcount
    simp only [audit, hopen, hcount, if_true]
  · exact audit_rows hopen hlayouts (Nat.pos_of_ne_zero hcount)

/-- **The report on fields is complete and exact.** In a document without infinite distances that
declares no occurrence for two base tables, the audit ends without a fault, its rows name each field
of the catalogue once and no other field, and they are ordered by the standing that they show, then by
table, then by field. -/
theorem field_report_complete {raw : String} {n : Node} (hread : read raw = .ok (some n))
    (hbounds : NoInfiniteBounds (Site.root n)) (hsingle : SingleBases (Site.root n)) :
    (∀ line ∈ (audit raw).log, beginsWith "Error in UnusedFieldsCheck: " line = false) ∧
    ∃ told : List Told, List.Forall₂ Told.In told (audit raw).rows ∧
      (∀ t ∈ told, t.status ∈ standings) ∧ (told.map fun t => (t.table, t.field)).Nodup ∧
      (∀ table field, (table, field) ∈ told.map (fun t => (t.table, t.field)) ↔
        (build (Site.root n)).fieldsByTable.hasField table field = true) ∧
      told.Pairwise Told.NotAfter := by
  have hopen := openDocument_of_read hread "findall"
  obtain ⟨uses, hlayouts⟩ := exists_usesOnLayouts_eq_ok (scopeAt (Site.root n)) hbounds
  have hdistinct : (fieldsAt (Site.root n)).Distinct := distinct_fieldsByTable _ _
  have hcatalog : (build (Site.root n)).fieldsByTable = fieldsAt (Site.root n) :=
    fieldsByTable_occurrences hsingle
  have hpairs := ((arranged_perm _).map fun r : Row => (r.table, r.field)).trans
    (rowsOf_pairs_perm (fieldsAt (Site.root n)) raw.toList
      (uses ++ otherUses (scopeAt (Site.root n)) (Site.root n)))
  have hrows := audit_rows_eq hopen hlayouts
  generalize rowsOf (fieldsAt (Site.root n)) _ _ = rows at hpairs hrows
  refine ⟨fun line hline => not_fault_of_opens (opens_of_mem_log hopen hlayouts line hline),
    (arranged rows).map Row.told, ?_, ?_, ?_, fun table field => ?_, arranged_pairwise rows⟩
  · rw [hrows]
    exact forall₂_told_cells _
  · rw [List.forall_mem_map]
    exact fun r _ => text_mem_standings r.status
  · rw [List.map_map]
    exact hpairs.nodup_iff.mpr (nodup_pairs hdistinct)
  · rw [List.map_map, hcatalog, ← mem_pairs_iff hdistinct]
    exact hpairs.mem_iff

/-- A report with a table of three fields. One of them stands on a layout, at a place that is not a
number. -/
def placedReport : String :=
  "<F><TableOccurrence name='O' baseTable='T'/><BaseTable name='T'><Field name='g'/>" ++
  "<Field name='f'/><Field name='#'/></BaseTable><Layout name='L'><Object type='Field'>" ++
  "<Bounds top='nan' left='x'/><Field name='g' table='O'/></Object></Layout></F>"

def placedTree : Node :=
  plain "F" []
    [plain "TableOccurrence" [("name", "O"), ("baseTable", "T")] [],
     plain "BaseTable" [("name", "T")]
      [plain "Field" [("name", "g")] [], plain "Field" [("name", "f")] [],
       plain "Field" [("name", "#")] []],
     plain "Layout" [("name", "L")]
      [plain "Object" [("type", "Field")]
        [plain "Bounds" [("top", "nan"), ("left", "x")] [],
         plain "Field" [("name", "g"), ("table", "O")] []]]]

set_option maxRecDepth 20000 in
theorem read_placed : read placedReport = .ok (some placedTree) :=
  (read_eq_of_toList (toList_three _ _ _) (by decide) (by rfl) (by rfl)).trans (by rfl)

theorem placed_rows :
    ∃ uses, usesOnLayouts (scopeAt (Site.root placedTree)) (Site.root placedTree) = .ok uses ∧
      ((rowsOf (fieldsAt (Site.root placedTree)) placedReport.toList
        (uses ++ otherUses (scopeAt (Site.root placedTree)) (Site.root placedTree))).map
        Row.told).Perm [⟨"T", "f", "Not Used"⟩, ⟨"T", "#", "Comment"⟩, ⟨"T", "g", "Used"⟩] := by
  refine ⟨_, rfl, ((rowsOf_perm _ _ _).map Row.told).trans ?_⟩
  decide +kernel

/-- The audit of `placedReport` ends without a fault, with a row for each of the three fields: first the
one that is not used, then the remark, then the one on the layout. -/
theorem placed_report_complete :
    NoInfiniteBounds (Site.root placedTree) ∧ SingleBases (Site.root placedTree) ∧
    (∀ line ∈ (audit placedReport).log,
      beginsWith "Error in UnusedFieldsCheck: " line = false) ∧
    List.Forall₂ Told.In [⟨"T", "f", "Not Used"⟩, ⟨"T", "#", "Comment"⟩, ⟨"T", "g", "Used"⟩]
      (audit placedReport).rows := by
  have hbounds : NoInfiniteBounds (Site.root placedTree) := by decide +kernel
  have hsingle : SingleBases (Site.root placedTree) := by decide +kernel
  obtain ⟨hlog, told, htold, -, -, -, hordered⟩ :=
    field_report_complete read_placed hbounds hsingle
  refine ⟨hbounds, hsingle, hlog, ?_⟩
  obtain ⟨uses, huses, hrows⟩ := placed_rows
  have hcells := audit_rows_eq (openDocument_of_read read_placed "findall") huses
  generalize rowsOf (fieldsAt (Site.root placedTree)) _ _ = rows at hrows hcells
  obtain rfl : told = (arranged rows).map Row.told :=
    told_unique htold (hcells ▸ forall₂_told_cells _)
  have hperm := ((arranged_perm rows).map Row.told).trans hrows
  rwa [List.Perm.eq_of_pairwise (fun a b ha hb => ?_) hordered (by decide +kernel) hperm] at htold
  have hantisymm : ∀ a ∈ [Told.mk "T" "f" "Not Used", ⟨"T", "#", "Comment"⟩, ⟨"T", "g", "Used"⟩],
      ∀ b ∈ [Told.mk "T" "f" "Not Used", ⟨"T", "#", "Comment"⟩, ⟨"T", "g", "Used"⟩],
        a.NotAfter b → b.NotAfter a → a = b := by
    decide +kernel
  exact hantisymm a (hperm.mem_iff.mp ha) b hb

end DesignAudit.FieldUse
