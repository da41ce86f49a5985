import DesignAudit.Dangling.Audit
import DesignAudit.Proofs.Catalog.Coverage
import DesignAudit.Proofs.Markup.Below
import DesignAudit.Proofs.Markup.Reader
import DesignAudit.Proofs.Text.Search
import DesignAudit.Proofs.Traversal

/-!
# The errors that the audit of dangling references reports

Each row of the audit has a cause (`Cause`): an element of the report names a script or a layout that
the catalogue lacks, or the error is about a table, a field, a portal or a custom function. This is
shown for the problems of each place first and then carried through the traversals that collect the
rows (`audit_rows_cause`).

The catalogue of a report lacks no script and no layout that the report names, not even one that is
named by a broken reference only. So the audit never tells of one
(`audit_tells_no_script_or_layout`).
-/

namespace DesignAudit.Dangling

open Markup Text Traversal

/-- How the errors begin that are about neither a script nor a layout. -/
def otherOpenings : List String :=
  ["Unknown table: ", "Unknown field: ", "Unknown table in calculation: ",
   "Unknown field in calculation: ", "Unknown portal table: ", "Unknown custom function: "]

/-- Why an error is reported: an element below the root names a script or a layout that the catalogue
lacks, or the error is of another kind. -/
inductive Cause (k : Known) (root : Site) : String → Prop where
  | script {s : Site} {name : String} (element : s ∈ root.all "Script")
      (named : s.node.named? "name" = some name)
      (lacking : k.catalogue.scripts.has name = false) :
      Cause k root s!"Unknown script: \"{name}\""
  | layout {s : Site} {name : String} (element : s ∈ root.all "Layout")
      (named : s.node.named? "name" = some name)
      (lacking : k.catalogue.layouts.has name = false) :
      Cause k root s!"Unknown layout: \"{name}\""
  | other {error opening : String} (known : opening ∈ otherOpenings)
      (opens : beginsWith opening error = true) : Cause k root error

variable {k : Known} {root : Site}

/-! ## Problems -/

theorem scriptProblem_cause {details : String} {s : Site} (hs : s ∈ root.all "Script") :
    ∀ p ∈ k.scriptProblem details s, Cause k root p.error := by
  intro p hp
  rw [Known.scriptProblem] at hp
  split at hp
  · rename_i name hname
    obtain rfl := List.mem_singleton.mp hp
    obtain ⟨hnamed, hlacks⟩ := Option.filter_eq_some_iff.mp hname
    exact .script hs hnamed (by simpa using hlacks)
  · cases hp

theorem layoutProblem_cause {s : Site} (hs : s ∈ root.all "Layout") :
    ∀ p ∈ k.layoutProblem s, Cause k root p.error := by
  intro p hp
  rw [Known.layoutProblem] at hp
  split at hp
  · rename_i name hname
    obtain rfl := List.mem_singleton.mp hp
    obtain ⟨hnamed, hlacks⟩ := Option.filter_eq_some_iff.mp hname
    exact .layout hs hnamed (by simpa using hlacks)
  · cases hp

theorem fieldProblem_cause {tableDetails fieldDetails : String} {f : Site} :
    ∀ p ∈ k.fieldProblem tableDetails fieldDetails f, Cause k root p.error := by
  intro p hp
  rw [Known.fieldProblem] at hp
  split at hp
  · split at hp
    · obtain rfl := List.mem_singleton.mp hp
      exact .other (by decide : "Unknown table: " ∈ otherOpenings)
        (beginsWith_append₂ (by decide) _ _)
    · obtain rfl := List.mem_singleton.mp hp
      exact .other (by decide : "Unknown field: " ∈ otherOpenings)
        (beginsWith_append₂ (beginsWith_append₂ (by decide) _ _) _ _)
    · cases hp
  · cases hp

theorem calculationProblems_cause {c : Site} :
    ∀ p ∈ k.calculationProblems c, Cause k root p.error := by
  intro p hp
  rw [Known.calculationProblems] at hp
  split at hp
  · cases hp
  · obtain ⟨⟨table, field⟩, -, hfound⟩ := List.mem_filterMap.mp hp
    dsimp only at hfound
    split at hfound
    · obtain rfl := Option.some.inj hfound
      exact .other (by decide : "Unknown table in calculation: " ∈ otherOpenings)
        (beginsWith_append₂ (by decide) _ _)
    · obtain rfl := Option.some.inj hfound
      exact .other (by decide : "Unknown field in calculation: " ∈ otherOpenings)
        (beginsWith_append₂ (beginsWith_append₂ (by decide) _ _) _ _)
    · cases hfound

theorem portalProblem_cause {portal : Site} :
    ∀ p ∈ k.portalProblem portal, Cause k root p.error := by
  intro p hp
  rw [Known.portalProblem] at hp
  split at hp
  · obtain rfl := List.mem_singleton.mp hp
    exact .other (by decide : "Unknown portal table: " ∈ otherOpenings)
      (beginsWith_append₂ (by decide) _ _)
  · cases hp

theorem callProblems_cause {c : Site} : ∀ p ∈ k.callProblems c, Cause k root p.error := by
  intro p hp
  rw [Known.callProblems] at hp
  split at hp
  · cases hp
  · obtain ⟨name, -, hfound⟩ := List.mem_filterMap.mp hp
    split at hfound
    · cases hfound
    · obtain rfl := Option.some.inj hfound
      exact .other (by decide : "Unknown custom function: " ∈ otherOpenings)
        (beginsWith_append₂ (by decide) _ _)

/-- A step asks for the first script and the first layout below it, which are below the root too. -/
theorem stepProblems_cause {name : String} {step : Site} (hstep : step ∈ root.below) :
    ∀ p ∈ k.stepProblems name step, Cause k root p.error := by
  intro p hp
  have hfirst : ∀ {tag : String} {t : Site}, step.first? tag = some t → t ∈ root.all tag := by
    intro tag t ht
    obtain ⟨hbelow, htag⟩ := Site.mem_below_of_first? ht
    exact Site.mem_all.mpr ⟨Site.below_trans hstep hbelow, htag⟩
  simp only [Known.stepProblems, List.mem_append] at hp
  rcases hp with ((hp | hp) | hp) | hp
  · split at hp
    · obtain ⟨t, ht, hp⟩ := List.mem_flatMap.mp hp
      exact scriptProblem_cause (hfirst (Option.mem_toList.mp ht)) p hp
    · cases hp
  · split at hp
    · obtain ⟨t, ht, hp⟩ := List.mem_flatMap.mp hp
      exact layoutProblem_cause (hfirst (Option.mem_toList.mp ht)) p hp
    · cases hp
  · split at hp
    · cases hp
    · obtain ⟨t, -, hp⟩ := List.mem_flatMap.mp hp
      exact fieldProblem_cause p hp
  · obtain ⟨t, -, hp⟩ := List.mem_flatMap.mp hp
    exact calculationProblems_cause p hp

/-! ## Rows -/

variable {rs : List Row} {r : Row} {object : Site} {e layout : String}

theorem row_error {s : Spot} {p : Problem} (h : k.row s p = .ok r) :
    r.error = p.error := by
  rw [Known.row, bind_eq_ok_iff] at h
  obtain ⟨status, -, h⟩ := h
  rw [← pure_eq_ok_iff.mp h]

theorem rows_cause {s : Spot} {ps : List Problem} (hps : ∀ p ∈ ps, Cause k root p.error)
    (h : k.rows s ps = .ok rs) : ∀ r ∈ rs, Cause k root r.error := by
  intro r hr
  obtain ⟨p, hp, hrow⟩ := (mem_of_mapM_eq_ok h).mp hr
  rw [row_error hrow]
  exact hps p hp

/-- What holds of each row of each member of a list holds of the rows of the list. -/
theorem forall_mem_of_flatten {α : Type} {p : Row → Prop} {f : α → Except Fault (List Row)}
    {xs : List α} (h : (do return (← xs.mapM f).flatten) = Except.ok rs)
    (hstep : ∀ x ∈ xs, ∀ ys, f x = .ok ys → ∀ r ∈ ys, p r) : ∀ r ∈ rs, p r := by
  obtain ⟨rss, hrss, h⟩ := bind_eq_ok_iff.mp h
  rw [← pure_eq_ok_iff.mp h]
  exact forall_flatten_of_mapM hrss hstep

theorem scriptRows_cause {script : Site} (hs : script ∈ root.below)
    (h : k.scriptRows script = .ok rs) : ∀ r ∈ rs, Cause k root r.error := by
  refine forall_mem_of_flatten h fun step hstep ys hys => ?_
  exact rows_cause (stepProblems_cause (Site.below_trans hs (Site.mem_all.mp hstep).1)) hys

theorem fieldRows_cause (h : k.fieldRows layout object = .ok rs) :
    ∀ r ∈ rs, Cause k root r.error := by
  obtain ⟨position, -, h⟩ := bind_eq_ok_iff.mp h
  refine rows_cause (fun p hp => ?_) h
  obtain ⟨f, -, hp⟩ := List.mem_flatMap.mp hp
  exact fieldProblem_cause p hp

/-- A button asks for the scripts below it, and once more for that of a single step. -/
theorem buttonRows_cause (hobject : object ∈ root.below) (h : k.buttonRows layout object = .ok rs) :
    ∀ r ∈ rs, Cause k root r.error := by
  obtain ⟨position, -, h⟩ := bind_eq_ok_iff.mp h
  refine rows_cause (fun p hp => ?_) h
  rcases List.mem_append.mp hp with hp | hp
  · obtain ⟨s, hs, hp⟩ := List.mem_flatMap.mp hp
    rw [Site.mem_all] at hs
    exact scriptProblem_cause (Site.mem_all.mpr ⟨Site.below_trans hobject hs.1, hs.2⟩) p hp
  · obtain ⟨s, hs, hp⟩ := List.mem_flatMap.mp hp
    obtain ⟨step, hstep, hs⟩ := Option.bind_eq_some_iff.mp (Option.mem_toList.mp hs)
    obtain ⟨single, hsingle, hstep⟩ := Option.bind_eq_some_iff.mp hstep
    obtain ⟨hs, htag⟩ := Site.mem_below_of_first? hs
    have hbelow : s ∈ object.below :=
      Site.below_trans (Site.mem_below_of_first? hsingle).1
        (Site.below_trans (Site.mem_below_of_firstWith? hstep) hs)
    exact scriptProblem_cause (Site.mem_all.mpr ⟨Site.below_trans hobject hbelow, htag⟩) p hp

theorem portalRows_cause (h : k.portalRows layout object = .ok rs) :
    ∀ r ∈ rs, Cause k root r.error := by
  obtain ⟨position, -, h⟩ := bind_eq_ok_iff.mp h
  refine rows_cause (fun p hp => ?_) h
  obtain ⟨portal, -, hp⟩ := List.mem_flatMap.mp hp
  exact portalProblem_cause p hp

theorem layoutRows_cause {layout : Site} (hl : layout ∈ root.below)
    (h : k.layoutRows layout = .ok rs) : ∀ r ∈ rs, Cause k root r.error := by
  obtain ⟨fields, hfields, h⟩ := bind_eq_ok_iff.mp h
  obtain ⟨buttons, hbuttons, h⟩ := bind_eq_ok_iff.mp h
  obtain ⟨portals, hportals, h⟩ := bind_eq_ok_iff.mp h
  rw [← pure_eq_ok_iff.mp h]
  simp only [List.forall_mem_append]
  refine ⟨⟨?_, ?_⟩, ?_⟩
  · exact forall_flatten_of_mapM hfields fun _ _ _ => fieldRows_cause
  · exact forall_flatten_of_mapM hbuttons fun object hobject _ =>
      buttonRows_cause (Site.below_trans hl (Site.mem_below_of_mem_allWith hobject))
  · exact forall_flatten_of_mapM hportals fun _ _ _ => portalRows_cause

theorem tableRows_cause {table : Site} (h : k.tableRows table = .ok rs) :
    ∀ r ∈ rs, Cause k root r.error := by
  refine forall_mem_of_flatten h fun field _ ys hys => ?_
  rw [Known.fieldCalculationRows] at hys
  split at hys
  · cases hys
    exact fun r hr => absurd hr List.not_mem_nil
  · exact rows_cause calculationProblems_cause hys

theorem functionRows_cause {f : Site} (h : k.functionRows f = .ok rs) :
    ∀ r ∈ rs, Cause k root r.error := by
  rw [Known.functionRows] at h
  split at h
  · cases h
    exact fun r hr => absurd hr List.not_mem_nil
  · exact rows_cause callProblems_cause h

theorem valueListRows_cause {v : Site} (h : k.valueListRows v = .ok rs) :
    ∀ r ∈ rs, Cause k root r.error := by
  refine rows_cause (fun p hp => ?_) h
  obtain ⟨f, -, hp⟩ := List.mem_flatMap.mp hp
  exact fieldProblem_cause p hp

theorem relationshipRows_cause {r : Site} (h : k.relationshipRows r = .ok rs) :
    ∀ r ∈ rs, Cause k root r.error :=
  forall_mem_of_flatten h fun _ _ _ hpair =>
    forall_mem_of_flatten hpair fun _ _ _ => rows_cause fieldProblem_cause

/-- Every row of the report has a cause, whatever the catalogue. -/
theorem allRows_cause (h : k.allRows root = .ok rs) :
    ∀ r ∈ rs, Cause k root r.error := by
  obtain ⟨scripts, hscripts, h⟩ := bind_eq_ok_iff.mp h
  obtain ⟨layouts, hlayouts, h⟩ := bind_eq_ok_iff.mp h
  obtain ⟨tables, htables, h⟩ := bind_eq_ok_iff.mp h
  obtain ⟨functions, hfunctions, h⟩ := bind_eq_ok_iff.mp h
  obtain ⟨valueLists, hvalueLists, h⟩ := bind_eq_ok_iff.mp h
  obtain ⟨relationships, hrelationships, h⟩ := bind_eq_ok_iff.mp h
  rw [← pure_eq_ok_iff.mp h]
  simp only [List.flatten_append, List.forall_mem_append]
  refine ⟨⟨⟨⟨⟨?_, ?_⟩, ?_⟩, ?_⟩, ?_⟩, ?_⟩
  · exact forall_flatten_of_mapM hscripts fun _ hs _ => scriptRows_cause (Site.mem_all.mp hs).1
  · exact forall_flatten_of_mapM hlayouts fun _ hl _ => layoutRows_cause (Site.mem_all.mp hl).1
  · exact forall_flatten_of_mapM htables fun _ _ _ => tableRows_cause
  · exact forall_flatten_of_mapM hfunctions fun _ _ _ => functionRows_cause
  · exact forall_flatten_of_mapM hvalueLists fun _ _ _ => valueListRows_cause
  · exact forall_flatten_of_mapM hrelationships fun _ _ _ => relationshipRows_cause

/-! ## The report -/

theorem mem_arranged {rows : List Row} : r ∈ arranged rows ↔ r ∈ rows := by
  simp only [arranged, mem_sortBy]

theorem error_of_mem_cells (h : ("Error", .text e) ∈ r.cells) :
    e = r.error := by
  simpa [Row.cells] using h

/-- Every error that the audit reports has a cause, whatever catalogue is given. -/
theorem audit_rows_cause {c : Catalog.Full} {n : Node} {row : Sheet.Row}
    (hrow : row ∈ (audit (some ⟨c, some n⟩)).rows) (he : ("Error", .text e) ∈ row) :
    Cause ⟨c⟩ (Site.root n) e := by
  rw [audit] at hrow
  cases hrows : Known.allRows ⟨c⟩ (Site.root n) with
  | error fault => simp [hrows] at hrow
  | ok rs =>
    simp only [hrows, List.mem_map] at hrow
    obtain ⟨r, hr, rfl⟩ := hrow
    rw [error_of_mem_cells he]
    exact allRows_cause hrows r (mem_arranged.mp hr)

/-- No other error begins like one about a script or a layout. -/
theorem clash_of_mem_otherOpenings : ∀ opening ∈ otherOpenings,
    ∀ part ∈ ["Unknown script:", "Unknown layout:"],
      beginsWith part opening = false ∧ beginsWith opening part = false := by
  decide

/-- Where the catalogue has all scripts that are named, no error is about a script. -/
theorem Cause.not_script (h : Cause k root e)
    (hcovers : ∀ s ∈ root.all "Script", ∀ name, s.node.named? "name" = some name →
      k.catalogue.scripts.has name = true) :
    beginsWith "Unknown script:" e = false := by
  cases h with
  | script element named lacking =>
    rw [hcovers _ element _ named] at lacking
    cases lacking
  | layout _ _ _ =>
    exact beginsWith_eq_false_of_clash "Unknown layout:"
      (beginsWith_append₂ (by decide) _ _) (by decide)
  | other known opens =>
    exact beginsWith_eq_false_of_clash _ opens (clash_of_mem_otherOpenings _ known _ (by decide))

/-- Where the catalogue has all layouts that are named, no error is about a layout. -/
theorem Cause.not_layout (h : Cause k root e)
    (hcovers : ∀ s ∈ root.all "Layout", ∀ name, s.node.named? "name" = some name →
      k.catalogue.layouts.has name = true) :
    beginsWith "Unknown layout:" e = false := by
  cases h with
  | script _ _ _ =>
    exact beginsWith_eq_false_of_clash "Unknown script:"
      (beginsWith_append₂ (by decide) _ _) (by decide)
  | layout element named lacking =>
    rw [hcovers _ element _ named] at lacking
    cases lacking
  | other known opens =>
    exact beginsWith_eq_false_of_clash _ opens (clash_of_mem_otherOpenings _ known _ (by decide))

/-- **No dangling script or layout is told of.** With the catalogue of the report itself, no row of
the audit has an error about an unknown script or layout, since every name that an element for a
script or a layout bears, anywhere below the root, is in the catalogue. -/
theorem audit_tells_no_script_or_layout (n : Node) :
    (∀ row ∈ (audit (some ⟨Catalog.build (Site.root n), some n⟩)).rows,
      ∀ e, ("Error", .text e) ∈ row →
        beginsWith "Unknown script:" e = false ∧ beginsWith "Unknown layout:" e = false) ∧
    (∀ s ∈ (Site.root n).all "Script", ∀ name, s.node.named? "name" = some name →
      (Catalog.build (Site.root n)).scripts.has name = true) ∧
    (∀ s ∈ (Site.root n).all "Layout", ∀ name, s.node.named? "name" = some name →
      (Catalog.build (Site.root n)).layouts.has name = true) := by
  have hscripts : ∀ s ∈ (Site.root n).all "Script", ∀ name, s.node.named? "name" = some name →
      (Catalog.build (Site.root n)).scripts.has name = true :=
    fun _ hs _ => Catalog.scripts_has hs
  have hlayouts : ∀ s ∈ (Site.root n).all "Layout", ∀ name, s.node.named? "name" = some name →
      (Catalog.build (Site.root n)).layouts.has name = true :=
    fun _ hs _ => Catalog.layouts_has hs
  refine ⟨fun row hrow e he => ?_, hscripts, hlayouts⟩
  have hcause := audit_rows_cause hrow he
  exact ⟨hcause.not_script hscripts, hcause.not_layout hlayouts⟩

/-- A report with a button for a script that is not there, and a field of a table that is not
there. -/
def brokenReport : Node :=
  plain "Report" [] [plain "Layout" [("name", "L")]
    [plain "Object" [("type", "Button")] [plain "Script" [("name", "Gone")] []],
     plain "Object" [("type", "Field")] [plain "Field" [("name", "F"), ("table", "T")] []]]]

theorem brokenReport_tells_of_table :
    (∃ row ∈ (audit (some ⟨Catalog.build (Site.root brokenReport), some brokenReport⟩)).rows,
      ("Error", .text "Unknown table: \"T\"") ∈ row ∧
        beginsWith "Unknown script:" "Unknown table: \"T\"" = false) ∧
    ∃ s ∈ (Site.root brokenReport).all "Script", s.node.named? "name" = some "Gone" ∧
      (Catalog.build (Site.root brokenReport)).scripts.has "Gone" = true := by
  have hmain := audit_tells_no_script_or_layout brokenReport
  have hrow : ∃ r, (Known.allRows ⟨Catalog.build (Site.root brokenReport)⟩
      (Site.root brokenReport)) = .ok [r] ∧ r.error = "Unknown table: \"T\"" := ⟨_, rfl, rfl⟩
  obtain ⟨r, hr, herror⟩ := hrow
  have hcells : r.cells ∈
      (audit (some ⟨Catalog.build (Site.root brokenReport), some brokenReport⟩)).rows := by
    rw [audit]
    simp only [hr]
    exact List.mem_map_of_mem (mem_arranged.mpr (List.mem_singleton.mpr rfl))
  have hcell : ("Error", .text "Unknown table: \"T\"") ∈ r.cells := by
    simp [Row.cells, herror]
  exact ⟨⟨r.cells, hcells, hcell, (hmain.1 r.cells hcells _ hcell).1⟩, _,
    List.get_mem _ ⟨0, by decide⟩, rfl, hmain.2.1 _ (List.get_mem _ ⟨0, by decide⟩) _ rfl⟩

end DesignAudit.Dangling
