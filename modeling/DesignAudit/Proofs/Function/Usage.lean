import DesignAudit.Function.Audit
import DesignAudit.Proofs.Markup.Reader
import DesignAudit.Proofs.Register
import Mathlib.Data.List.Count

/-!
# When a custom function counts as used

The uses of a function are the visits of calculations that name it, and the definitions of functions
that do (`filter_uses`). Each function has one row, which tells of its uses or calls it unused
(`filter_rowsOf`).

A function that calls itself and is called by no other function is taken for unused, even where
calculations outside of functions use it: the callers that are looked at are functions only.
`used_function_active_iff` says that this is the one case in which a use outside of functions is lost.
-/

namespace DesignAudit.Function

open Markup Text

/-- The visits of calculations outside of functions that name a function. A calculation that is
searched from several places is visited once from each. -/
def visits (root : Site) (name : String) : List Calculation :=
  (calculations root).filter fun c => mentions name c.text.toList

/-- The functions whose definitions name a function. -/
def callersOf (known : Register String) (name : String) : List String :=
  (known.entries.filter fun e => e.2 != "" && mentions name e.2.toList).map (·.1)

/-- A function calls itself, and no other function calls it. -/
def CalledByItselfAlone (known : Register String) (name : String) : Prop :=
  ∀ caller, caller ∈ callersOf known name ↔ caller = name

/-- Whether a row of cells is that of a function. -/
def isRowOf (name : String) (row : Sheet.Row) : Bool :=
  row.lookup "Custom Function" == some (.text name)

/-! ## The uses of one function -/

/-- Of names without repetition one name is picked once, if it passes a test. -/
theorem filter_filter_beq {names : List String} (hnodup : names.Nodup) {name : String}
    (hname : name ∈ names) (p : String → Bool) :
    (names.filter p).filter (· == name) = if p name then [name] else [] := by
  rw [List.filter_comm, List.filter_beq, List.count_eq_one_of_mem hnodup hname]
  cases hp : p name <;> simp [hp]

theorem flatMap_ite_singleton {α β : Type} (p : α → Bool) (f : α → β) (xs : List α) :
    xs.flatMap (fun x => if p x then [f x] else []) = (xs.filter p).map f := by
  induction xs with
  | nil => rfl
  | cons x xs ih =>
    rw [List.flatMap_cons, ih, List.filter_cons]
    split <;> rfl

section Known

variable {known : Register String} (hnodup : known.names.Nodup) {name : String}
  (hname : name ∈ known.names)

include hnodup hname

theorem filter_usesIn (c : Calculation) :
    (usesIn known.names c).filter (·.function == name) =
      if mentions name c.text.toList then [⟨name, c.kind, c.location⟩] else [] := by
  have hpick := filter_filter_beq hnodup hname (mentions · c.text.toList)
  rw [usesIn, List.filter_map]
  exact (congrArg (List.map _) hpick).trans (by split <;> rfl)

theorem filter_calls :
    (calls known).filter (·.1 == name) = (callersOf known name).map (name, ·) := by
  rw [calls, List.filter_flatMap, callersOf, List.map_map, ← flatMap_ite_singleton]
  refine List.flatMap_congr fun e _ => ?_
  have hpick := filter_filter_beq hnodup hname (mentions · e.2.toList)
  by_cases hempty : e.2 = ""
  · simp [hempty]
  · simp only [hempty, beq_iff_eq, if_false, List.filter_map]
    exact (congrArg (List.map _) hpick).trans (by split <;> simp_all)

/-- The uses of a function are the visits of calculations that name it, followed by the definitions
that name it. -/
theorem filter_uses (root : Site) :
    (uses known root).filter (·.function == name) =
      (visits root name).map (fun c => ⟨name, c.kind, c.location⟩) ++
        (callersOf known name).map fun caller => callUse (name, caller) := by
  rw [uses, List.filter_append, List.filter_flatMap, List.filter_map]
  congr 1
  · rw [visits, ← flatMap_ite_singleton]
    exact List.flatMap_congr fun c _ => filter_usesIn hnodup hname c
  · have hcalls := congrArg (List.map callUse) (filter_calls hnodup hname)
    rw [List.map_map] at hcalls
    exact hcalls

theorem mem_callers {caller : String} :
    caller ∈ callers (calls known) name ↔ caller ∈ callersOf known name := by
  rw [callers, mem_distinct, filter_calls hnodup hname, List.map_map]
  exact Iff.of_eq (congrArg (caller ∈ ·) (List.map_id _))

theorem onlyItself_iff :
    onlyItself (calls known) name = true ↔ CalledByItselfAlone known name := by
  have hmem := @mem_callers known hnodup name hname
  rw [onlyItself, beq_iff_eq, CalledByItselfAlone]
  simp only [← hmem]
  constructor
  · intro h caller
    rw [h, List.mem_singleton]
  · intro h
    refine List.perm_singleton.mp ((List.perm_ext_iff_of_nodup (nodup_distinct _)
      (List.nodup_singleton name)).mpr fun caller => ?_)
    rw [List.mem_singleton]
    exact h caller

end Known

/-! ## The row of one function -/

/-- Of rows for names without repetition one is that of a name. -/
theorem filter_map_rows {names : List String} (hnodup : names.Nodup) (row : String → Row)
    (hrow : ∀ n, (row n).function = n) (name : String) :
    (names.map row).filter (·.function == name) = if name ∈ names then [row name] else [] := by
  have hsame : (fun r : Row => r.function == name) ∘ row = (· == name) := by
    funext n
    simp only [Function.comp_apply, hrow]
  rw [List.filter_map, hsame, List.filter_beq, hnodup.count]
  split <;> rfl

theorem filter_sortBy_rows {κ : Type} [Ord κ] (key : Row → κ) {rows : List Row} {name : String}
    {p : Prop} [Decidable p] {row : Row}
    (hfound : rows.filter (·.function == name) = if p then [row] else []) :
    (sortBy key rows).filter (·.function == name) = if p then [row] else [] := by
  have hperm := (sortBy_perm key rows).filter (·.function == name)
  rw [hfound] at hperm
  split at hperm
  · rename_i hp
    rw [if_pos hp]
    exact List.perm_singleton.mp hperm
  · rename_i hp
    rw [if_neg hp]
    exact hperm.eq_nil

/-- Each known function has one row: that of its uses, unless it has none or is called by itself
alone. -/
theorem filter_rowsOf {known : Register String} (hnodup : known.names.Nodup) {name : String}
    (hname : name ∈ known.names) (all : List Use) (calls : List (String × String)) :
    (rowsOf known all calls).filter (·.function == name) =
      if name ∈ all.map (·.function) ∧ onlyItself calls name = false
      then [activeRow all calls name] else [unusedRow name] := by
  have hused := nodup_distinct (all.map (·.function))
  have hactive := filter_map_rows (hused.filter fun n => !onlyItself calls n)
    (activeRow all calls) (fun _ => rfl) name
  have hunused := filter_map_rows ((sortBy_perm id _).nodup_iff.mpr
    (hnodup.filter fun n => !(distinct (all.map (·.function))).contains n || onlyItself calls n))
    unusedRow (fun _ => rfl) name
  rw [rowsOf, List.filter_append, filter_sortBy_rows _ hactive, sorted, hunused]
  simp only [mem_sortBy, List.mem_filter, mem_distinct, hname, true_and, Bool.or_eq_true,
    Bool.not_eq_true', ← Bool.not_eq_true, List.contains_iff_mem]
  by_cases hmem : name ∈ all.map (·.function) <;> by_cases honly : onlyItself calls name = true <;>
    simp [hmem, honly]

theorem audit_rows {raw : String} {root : Site} (hopen : openDocument "findall" raw = .ok root) :
    (audit raw).rows =
      (rowsOf (functions root) (uses (functions root) root) (calls (functions root))).map
        Row.cells := by
  rw [audit, hopen]

theorem filter_isRowOf (rows : List Row) (name : String) :
    (rows.map Row.cells).filter (isRowOf name) =
      (rows.filter (·.function == name)).map Row.cells := by
  rw [List.filter_map]
  congr 2
  funext r
  show (some (Sheet.Cell.text r.function) == some (.text name)) = (r.function == name)
  rw [Bool.eq_iff_iff, beq_iff_eq, beq_iff_eq, Option.some_inj, Sheet.Cell.text.injEq]

/-- **When a used function is shown as active.** A function that some calculation outside of functions
names has one row. This shows it as active, with at least as many uses as there are visits of such
calculations, exactly if it is not called by itself alone. The uses are then the visits and the
functions that call it; otherwise the row calls the function unused. -/
theorem used_function_active_iff {raw name : String} {root : Site}
    (hopen : openDocument "findall" raw = .ok root) (hknown : (functions root).has name = true)
    (hused : visits root name ≠ []) :
    ∃ row, (audit raw).rows.filter (isRowOf name) = [row] ∧
      ((row.lookup "Status" = some (.text "Active") ∧
          ∃ n : Nat, row.lookup "Usage Count" = some (.whole n) ∧
            (visits root name).length ≤ n) ↔
        ¬ CalledByItselfAlone (functions root) name) ∧
      (¬ CalledByItselfAlone (functions root) name →
        row.lookup "Usage Count" = some (.whole
          ((visits root name).length + (callersOf (functions root) name).length : Nat))) ∧
      (CalledByItselfAlone (functions root) name →
        row.lookup "Status" = some (.text "Unused") ∧
          row.lookup "Usage Count" = some (.whole 0)) := by
  have hnodup : (functions root).names.Nodup := Register.nodup_names_ofList _
  have hname := Register.mem_names_iff.mpr hknown
  have huses := filter_uses hnodup hname root
  have hmem : name ∈ (uses (functions root) root).map (·.function) := by
    obtain ⟨c, hc⟩ := List.exists_mem_of_ne_nil _ hused
    have hfound := huses ▸ List.mem_append_left _ (List.mem_map_of_mem hc)
    exact List.mem_map.mpr ⟨_, List.mem_of_mem_filter hfound, rfl⟩
  have hrow := filter_rowsOf hnodup hname (uses (functions root) root) (calls (functions root))
  rw [audit_rows hopen, filter_isRowOf, hrow]
  by_cases halone : CalledByItselfAlone (functions root) name
  · rw [if_neg (by simp [(onlyItself_iff hnodup hname).mpr halone])]
    refine ⟨_, rfl, ?_, fun h => absurd halone h, fun _ => ⟨rfl, rfl⟩⟩
    refine iff_of_false (fun h => ?_) (not_not_intro halone)
    have htext : Sheet.Cell.text "Unused" = .text "Active" := Option.some.inj h.1
    exact absurd htext (by decide)
  · have honly : onlyItself (calls (functions root)) name = false :=
      Bool.eq_false_iff.mpr fun h => halone ((onlyItself_iff hnodup hname).mp h)
    have hcount : (activeRow (uses (functions root) root) (calls (functions root)) name).count =
        (visits root name).length + (callersOf (functions root) name).length := by
      rw [activeRow, huses, List.length_append, List.length_map, List.length_map]
    rw [if_pos ⟨hmem, honly⟩]
    refine ⟨_, rfl, iff_of_true ⟨rfl, _, rfl, ?_⟩ halone, fun _ => ?_, fun h => absurd h halone⟩
    · rw [hcount]
      exact Nat.le_add_right _ _
    · rw [← hcount]
      rfl

/-- A report with two functions that a script uses. One of them calls itself and the other one. -/
def recursiveReport : String :=
  "<F><CustomFunctionCatalog><CustomFunction name='G'><Calculation>G(H)</Calculation>" ++
  "</CustomFunction><CustomFunction name='H'/></CustomFunctionCatalog>" ++
  "<Script><Calculation>G(H)</Calculation></Script></F>"

def recursiveTree : Node :=
  let calculation := calculationOf "G(H)"
  plain "F" []
    [plain "CustomFunctionCatalog" []
      [plain "CustomFunction" [("name", "G")] [calculation],
       plain "CustomFunction" [("name", "H")] []],
     plain "Script" [] [calculation]]

set_option maxRecDepth 20000 in
theorem read_recursive : read recursiveReport = .ok (some recursiveTree) :=
  (read_eq_of_toList (toList_three _ _ _) (by decide) (by rfl) (by rfl)).trans (by rfl)

/-- Both functions are visited once. The one that calls itself is called unused, the other one is
shown with two uses. -/
theorem recursive_use_lost :
    (visits (Site.root recursiveTree) "G").length = 1 ∧
    (∃ row ∈ (audit recursiveReport).rows, isRowOf "G" row = true ∧
      row.lookup "Status" = some (.text "Unused")) ∧
    (visits (Site.root recursiveTree) "H").length = 1 ∧
    (∃ row ∈ (audit recursiveReport).rows, isRowOf "H" row = true ∧
      row.lookup "Status" = some (.text "Active") ∧
      row.lookup "Usage Count" = some (.whole 2)) := by
  have hopen := openDocument_of_read read_recursive "findall"
  have hvisits : ∀ name ∈ ["G", "H"], (visits (Site.root recursiveTree) name).length = 1 := by
    decide +kernel
  have hused : ∀ name ∈ ["G", "H"], visits (Site.root recursiveTree) name ≠ [] := fun name h =>
    List.ne_nil_of_length_pos (by rw [hvisits name h]; exact Nat.one_pos)
  have hcallers : ∀ name ∈ ["G", "H"],
      callersOf (functions (Site.root recursiveTree)) name = ["G"] := by decide +kernel
  have hknown : ∀ name ∈ ["G", "H"],
      (functions (Site.root recursiveTree)).has name = true := by decide +kernel
  obtain ⟨g, hg, -, -, hunused⟩ :=
    used_function_active_iff hopen (hknown "G" (by decide)) (hused "G" (by decide))
  obtain ⟨h, hh, hactive, hcount, -⟩ :=
    used_function_active_iff hopen (hknown "H" (by decide)) (hused "H" (by decide))
  have hself : CalledByItselfAlone (functions (Site.root recursiveTree)) "G" := by
    intro caller
    rw [hcallers "G" (by decide), List.mem_singleton]
  have hother : ¬ CalledByItselfAlone (functions (Site.root recursiveTree)) "H" := by
    intro halone
    have hmem := (halone "H").mpr rfl
    rw [hcallers "H" (by decide)] at hmem
    exact absurd hmem (by decide)
  have hgmem := List.mem_filter.mp (hg ▸ List.mem_singleton_self g)
  have hhmem := List.mem_filter.mp (hh ▸ List.mem_singleton_self h)
  refine ⟨hvisits "G" (by decide), ⟨g, hgmem.1, hgmem.2, (hunused hself).1⟩,
    hvisits "H" (by decide), h, hhmem.1, hhmem.2, (hactive.mpr hother).1, ?_⟩
  have hcount := hcount hother
  rw [hvisits "H" (by decide), hcallers "H" (by decide)] at hcount
  exact hcount

end DesignAudit.Function
