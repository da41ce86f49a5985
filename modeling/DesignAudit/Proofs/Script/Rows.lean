import DesignAudit.Proofs.Markup.Reader
import DesignAudit.Proofs.Script.Report
import DesignAudit.Proofs.Text.Search
import Mathlib.Data.String.Basic

/-!
# One row for each script

The audit of scripts completes unless the search for the place of a reference leaves the document,
which takes a field with few elements around it. Where all fields lie deep enough (`DeepFields`),
there is one row for each script that is defined, and the rows stand in the order of the report: by
status, by decreasing number of uses, by name.
-/

namespace DesignAudit.Script

open Markup Text Traversal

/-! ## Fields that lie deep enough -/

/-- Each field of a document has four elements around it, or a base table. -/
def DeepFields (root : Site) : Prop :=
  ∀ s ∈ root :: root.below, s.tag = "Field" →
    4 ≤ s.above.length ∨ ∃ n ∈ s.above, n.tag = "BaseTable"

instance (root : Site) : Decidable (DeepFields root) :=
  inferInstanceAs (Decidable (∀ s ∈ root :: root.below, s.tag = "Field" →
    4 ≤ s.above.length ∨ ∃ n ∈ s.above, n.tag = "BaseTable"))

variable {root : Site} {raw : String}

theorem DeepFields.not_inShallowField {root s : Site} (h : DeepFields root)
    (hroot : root.above = []) (hs : s ∈ root.below) : ¬ InShallowField s := by
  rintro ⟨k, -, n, above, hdrop, hfield, hshort, htables⟩
  have habove : s.above = s.above.take k ++ n :: above := by
    rw [← hdrop, List.take_append_drop]
  obtain ⟨t, ht, rfl, rfl⟩ := Site.exists_mem_of_above hroot hs habove
  rcases h t ht hfield with hdeep | ⟨m, hm, htable⟩
  · exact absurd hdeep (Nat.not_le.mpr hshort)
  · exact htables m hm htable

/-- In such a document all references can be placed. -/
theorem DeepFields.allPlaced [Marks] (h : DeepFields root) (hroot : root.above = []) :
    AllPlaced root := by
  intro s hs _ hstumbles
  have hmem : s ∈ root.all "Script" := List.mem_of_mem_filter hs
  exact h.not_inShallowField hroot (Site.mem_all.mp hmem).1 hstumbles.shallow

/-! ## The log -/

/-- The openings of the lines that an audit writes while nothing fails. -/
def openings : List String := ["Found ", "  ", "[DEBUG] "]

theorem opens_progressNotes (found : Nat) :
    ∀ line ∈ progressNotes found, opensWith openings line = true := by
  rw [progressNotes, List.forall_mem_map]
  exact fun _ _ => opensWith_append₂ (by decide) _ _

theorem index_names_ne_nil (h : namedDefinitions root ≠ []) :
    (Index.of root).names.isEmpty = false := by
  obtain ⟨d, hd⟩ := List.exists_mem_of_ne_nil _ h
  have hmem := Register.mem_names_iff.mpr (has_index_iff.mpr ⟨d, hd, rfl⟩)
  rw [List.isEmpty_eq_false_iff]
  exact List.ne_nil_of_mem hmem

theorem opens_of_mem_log [Marks] (debug : Bool) {usages : Register Usage}
    (hopen : openDocument "findall" raw = .ok root)
    (hdefined : (Index.of root).names.isEmpty = false)
    (husages : referenceUsages (Index.of root) root = .ok usages) :
    ∀ line ∈ (audit debug raw).log, opensWith openings line = true := by
  rw [audit, hopen]
  simp only [hdefined, Bool.false_eq_true, if_false, husages, List.forall_mem_append,
    List.forall_mem_cons]
  refine ⟨⟨⟨⟨⟨⟨opensWith_append₂ (by decide) _ _, by decide, by decide,
    opensWith_append₂ (by decide) _ _, opensWith_append₂ (by decide) _ _, List.forall_mem_nil _⟩,
    opens_progressNotes _⟩, opensWith_append₂ (by decide) _ _, by decide,
    opensWith_append₂ (by decide) _ _, List.forall_mem_nil _⟩, opensWith_append₂ (by decide) _ _,
    opensWith_append₂ (by decide) _ _, List.forall_mem_nil _⟩, ?_⟩, ?_⟩
  · split
    · rw [List.forall_mem_map]
      exact fun _ _ => opensWith_append (opensWith_append₂ (by decide) _ _) _
    · exact List.forall_mem_nil _
  · split
    · rw [List.forall_mem_map]
      exact fun _ _ => opensWith_append₂ (by decide) _ _
    · exact List.forall_mem_nil _

/-! ## The order of the rows -/

/-- How the statuses are shown, in the order of the report. -/
def statusOrder : List String :=
  ["⚠️ NOT USED", "Check Manually", "Server", "Debug", "Dev Playground", "Scheduled For Deletion",
   "Active"]

theorem idxOf_statusOrder (status : Status) : statusOrder.idxOf status.text = status.rank := by
  cases status <;> decide

theorem rank_injective {a b : Status} (h : a.rank = b.rank) : a = b := by
  cases a <;> cases b <;> first | rfl | cases h

/-- Where the first definition of a script stands among all definitions. -/
def firstDefined (root : Site) (name : String) : Nat :=
  ((namedDefinitions root).map definedName).idxOf name

/-- The order of two rows of the report: by status, then the script with more uses first, then by
the name without regard to case, then by the first definition. -/
def Precedes (root : Site) (a b : Row) : Prop :=
  statusOrder.idxOf a.status.text < statusOrder.idxOf b.status.text ∨
  a.status = b.status ∧ (b.total < a.total ∨
    a.total = b.total ∧ (lower a.name < lower b.name ∨
      lower a.name = lower b.name ∧ firstDefined root a.name < firstDefined root b.name))

theorem index_names_pairwise (root : Site) :
    (Index.of root).names.Pairwise fun a b => firstDefined root a < firstDefined root b := by
  have hnames : (Index.of root).names = distinct ((namedDefinitions root).map definedName) := by
    refine (Register.names_ofList _).trans ?_
    rw [List.map_map]
    rfl
  rw [hnames]
  exact pairwise_distinct _

theorem arranged_pairwise {rows : List Row}
    (h : rows.Pairwise fun a b => firstDefined root a.name < firstDefined root b.name) :
    (arranged rows).Pairwise (Precedes root) := by
  have hname := sortBy_pairwise_then (fun r : Row => lower r.name) h
  have htotal := sortBy_pairwise_then (fun r : Row => -(r.total : Int)) hname
  refine (sortBy_pairwise_then (fun r : Row => r.status.rank) htotal).imp fun {a b} hab => ?_
  simp only [compare_lt_iff_lt, compare_eq_iff_eq] at hab
  rw [Precedes, idxOf_statusOrder, idxOf_statusOrder]
  refine hab.imp id fun ⟨hstatus, hab⟩ => ⟨rank_injective hstatus, hab.imp ?_ ?_⟩
  · omega
  · exact fun ⟨htotal, hab⟩ => ⟨by omega, hab⟩

/-! ## The report -/

theorem names_reportRows_perm [Marks] (debug : Bool) {usages : Register Usage}
    (hopen : openDocument "findall" raw = .ok root)
    (husages : referenceUsages (Index.of root) root = .ok usages) :
    ((reportRows debug raw).map Row.name).Perm (Index.of root).names := by
  rw [reportRows_eq debug hopen husages]
  refine ((arranged_perm _).map Row.name).trans (List.Perm.of_eq ?_)
  rw [List.map_map]
  exact List.map_id _

/-- A reference that cannot be placed ends the audit. -/
theorem audit_of_fault [Marks] (debug : Bool) {fault : Fault}
    (hopen : openDocument "findall" raw = .ok root)
    (hdefined : (Index.of root).names.isEmpty = false)
    (hfault : referenceUsages (Index.of root) root = .error fault) :
    (audit debug raw).rows = [] ∧
      "Error in UnusedScriptsCheck: " ++ fault.message ∈ (audit debug raw).log := by
  rw [audit, hopen]
  simp only [hdefined, Bool.false_eq_true, if_false, hfault]
  exact ⟨rfl, List.mem_append_right _ (List.mem_singleton_self _)⟩

/-- An audit that writes no error has gone through all references of a document with scripts. -/
theorem referenceUsages_of_no_error [Marks] (debug : Bool) (hdone : ∀ line ∈ (audit debug raw).log,
      beginsWith "Error in UnusedScriptsCheck: " line = false) :
    ∃ root usages, openDocument "findall" raw = .ok root ∧
      referenceUsages (Index.of root) root = .ok usages := by
  have herror : ∀ fault : Fault,
      "Error in UnusedScriptsCheck: " ++ fault.message ∉ (audit debug raw).log := by
    intro fault hline
    have hline := hdone _ hline
    rw [beginsWith_append (beginsWith_self _) _] at hline
    cases hline
  cases hopen : openDocument "findall" raw with
  | error fault =>
    refine absurd ?_ (herror fault)
    rw [audit, hopen]
    exact List.mem_singleton_self _
  | ok root =>
    cases hnames : (Index.of root).names.isEmpty with
    | true =>
      refine absurd ?_ (herror .noScriptNames)
      rw [audit, hopen]
      simp only [hnames, if_true]
      exact List.mem_append_right _ (List.mem_singleton_self _)
    | false =>
      cases husages : referenceUsages (Index.of root) root with
      | error fault => exact absurd (audit_of_fault debug hopen hnames husages).2 (herror fault)
      | ok usages => exact ⟨root, usages, rfl, husages⟩

/-- **Each script has one row, in the order of the report.** Let a document have a definition with a
name. If all of its fields have four elements around them or a base table, the audit completes. It
then has one row for each name of a definition and no other row, and the rows stand by status, then
by decreasing number of uses, then by name without regard to case. This is not so for all documents:
one reference of a trigger in a field without enough around it leaves the report without any row. -/
theorem one_row_for_each_script [Marks] (debug : Bool) {raw : String} {root : Site}
    (hopen : openDocument "findall" raw = .ok root) (hdefined : namedDefinitions root ≠ []) :
    (DeepFields root →
      (∀ line ∈ (audit debug raw).log, beginsWith "Error in UnusedScriptsCheck: " line = false) ∧
      ∃ rows : List Row, (audit debug raw).rows = rows.map Row.cells ∧
        (rows.map Row.name).Nodup ∧
        (∀ name, name ∈ rows.map Row.name ↔ ∃ d ∈ namedDefinitions root, definedName d = name) ∧
        (∀ r ∈ rows, r.cells.lookup "Script Name" = some (.text r.name) ∧
          r.cells.lookup "Status" = some (.text r.status.text) ∧
          r.cells.lookup "Total Usage" = some (.whole r.total)) ∧
        rows.Pairwise (Precedes root)) ∧
    ∀ s ∈ references root, ((Index.of root).resolve? s.node).isSome = true →
      Stumbles (Index.of root) s →
        (audit debug raw).rows = [] ∧
        ∃ line ∈ (audit debug raw).log, beginsWith "Error in UnusedScriptsCheck: " line = true := by
  have hnames := index_names_ne_nil hdefined
  constructor
  · intro hdeep
    obtain ⟨usages, husages⟩ :=
      exists_referenceUsages_iff.mpr (hdeep.allPlaced (above_of_openDocument hopen))
    have hperm := names_reportRows_perm debug hopen husages
    refine ⟨fun line hline => beginsWith_eq_false_of_opensWith (by decide)
      (opens_of_mem_log debug hopen hnames husages line hline), _, audit_rows debug raw,
      hperm.nodup_iff.mpr (Register.nodup_names_ofList _), fun name => ?_,
      fun r _ => ⟨rfl, rfl, rfl⟩, ?_⟩
    · rw [hperm.mem_iff, Index.names, Register.mem_names_iff, ← Index.has, has_index_iff]
    · rw [reportRows_eq debug hopen husages]
      exact arranged_pairwise (List.pairwise_map.mpr (index_names_pairwise root))
  · intro s hs hmeans hstumbles
    cases husages : referenceUsages (Index.of root) root with
    | ok usages => exact absurd hstumbles (exists_referenceUsages_iff.mp ⟨usages, husages⟩ s hs hmeans)
    | error fault =>
      obtain ⟨hrows, hline⟩ := audit_of_fault debug hopen hnames husages
      exact ⟨hrows, _, hline, beginsWith_append (beginsWith_self _) _⟩

/-- A report with two scripts, of which a trigger on a field of a base table calls one. -/
def deepReport : String :=
  "<F><Script id='1' name='A'><Step/></Script><Script name='a'><Step/></Script>" ++
  "<BaseTable name='T'><Field name='f'><Trigger event='OnObjectSave'><Script id='1'/>" ++
  "</Trigger></Field></BaseTable></F>"

/-- A report in which the field lies directly below the root. -/
def shallowReport : String :=
  "<F><Script id='1' name='A'><Step/></Script><Field name='f'><Trigger event='OnObjectSave'>" ++
  "<Script id='1'/></Trigger></Field></F>"

/-- A field with a trigger that calls a script. -/
def triggeredField : Node :=
  plain "Field" [("name", "f")]
    [plain "Trigger" [("event", "OnObjectSave")] [plain "Script" [("id", "1")] []]]

def deepTree : Node :=
  plain "F" []
    [plain "Script" [("id", "1"), ("name", "A")] [plain "Step" [] []],
     plain "Script" [("name", "a")] [plain "Step" [] []],
     plain "BaseTable" [("name", "T")] [triggeredField]]

def shallowTree : Node :=
  plain "F" []
    [plain "Script" [("id", "1"), ("name", "A")] [plain "Step" [] []], triggeredField]

set_option maxRecDepth 20000 in
theorem read_deep : read deepReport = .ok (some deepTree) :=
  (read_eq_of_toList (toList_three _ _ _) (by decide) (by rfl) (by rfl)).trans (by rfl)

set_option maxRecDepth 20000 in
theorem read_shallow : read shallowReport = .ok (some shallowTree) :=
  (read_eq_of_toList (toList_two _ _) (by decide) (by rfl) (by rfl)).trans (by rfl)

/-- The report with a base table has a row for each of the two scripts; the one without has none,
though a script is defined. -/
theorem deep_and_shallow_rows :
    (∃ rows : List Row, (audit false deepReport).rows = rows.map Row.cells ∧
      (rows.map Row.name).Perm ["A", "a"] ∧ rows.Pairwise (Precedes (Site.root deepTree))) ∧
    (∃ d ∈ namedDefinitions (Site.root shallowTree), definedName d = "A") ∧
    (audit false shallowReport).rows = [] := by
  have hdeep : DeepFields (Site.root deepTree) := by decide
  obtain ⟨-, rows, hrows, hnodup, hmem, -, horder⟩ := (one_row_for_each_script false
    (openDocument_of_read read_deep "findall") (by decide)).1 hdeep
  have hnames : (namedDefinitions (Site.root deepTree)).map definedName = ["A", "a"] := by decide
  refine ⟨⟨rows, hrows, ?_, horder⟩, by decide, ?_⟩
  · refine (List.perm_ext_iff_of_nodup hnodup (by decide)).mpr fun name => ?_
    rw [hmem, ← hnames, List.mem_map]
  · have hstumbles : Stumbles (Index.of (Site.root shallowTree))
        ((references (Site.root shallowTree)).get ⟨0, by decide⟩) :=
      ⟨by decide, by decide, by decide, 1, by decide, _, _, rfl, by decide, by decide, by decide⟩
    exact ((one_row_for_each_script false (openDocument_of_read read_shallow "findall")
      (by decide)).2 _ (List.get_mem _ _) (by decide) hstumbles).1

end DesignAudit.Script
