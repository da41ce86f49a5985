import DesignAudit.Proofs.Function.Usage
import DesignAudit.Proofs.Text.Search
import Mathlib.Data.String.Basic

/-!
# One row for each custom function

The rows of the audit of functions come from two lists: the functions of the catalogue, of which
those that nothing uses are taken, and the functions for which a use was found. Both lists leave out
what the other one takes, for any graph of calls, so that every function has one row
(`names_rowsOf_perm`).

Unused functions come first, by name. The others follow by number of uses, and those with equally
many in the order in which they were first found used (`active_pairwise`).
`one_row_for_each_function` puts this together for a document that can be read.
-/

namespace DesignAudit.Function

open Markup Text

/-- A function of a name stands in a catalogue of functions below the root. -/
def DeclaresFunction (root : Site) (name : String) : Prop :=
  ∃ catalogue ∈ root.all "CustomFunctionCatalog", ∃ f ∈ catalogue.childrenNamed "CustomFunction",
    f.node.attrD "name" "Unknown Function" = name

/-- The position of a function in the uses, in the order in which these are found. -/
def firstFound (all : List Use) (name : String) : Nat := (all.map (·.function)).idxOf name

/-- The functions without a use, and those that are called by themselves alone. -/
def unusedNames (known : Register String) (all : List Use) (calls : List (String × String)) :
    List String :=
  known.names.filter fun n => !(distinct (all.map (·.function))).contains n || onlyItself calls n

/-- The other functions for which a use was found, in the order of their first uses. -/
def activeNames (all : List Use) (calls : List (String × String)) : List String :=
  (distinct (all.map (·.function))).filter fun n => !onlyItself calls n

/-- The rows of the functions that are shown as active. -/
def activeRows (all : List Use) (calls : List (String × String)) : List Row :=
  sortBy (fun r => -(r.count : Int)) ((activeNames all calls).map (activeRow all calls))

theorem rowsOf_eq (known : Register String) (all : List Use) (calls : List (String × String)) :
    rowsOf known all calls =
      (sorted (unusedNames known all calls)).map unusedRow ++ activeRows all calls :=
  rfl

/-! ## Names -/

theorem declaresFunction_iff {root : Site} {name : String} :
    DeclaresFunction root name ↔ name ∈ (functions root).names := by
  rw [Register.mem_names_iff, functions, Register.has_ofList]
  simp only [List.mem_map, Prod.mk.injEq, Site.allPath, List.mem_flatMap, Site.down,
    List.flatMap_singleton']
  constructor
  · rintro ⟨catalogue, hcatalogue, f, hf, hname⟩
    exact ⟨_, f, ⟨catalogue, hcatalogue, hf⟩, hname, rfl⟩
  · rintro ⟨-, f, ⟨catalogue, hcatalogue, hf⟩, hname, -⟩
    exact ⟨catalogue, hcatalogue, f, hf, hname⟩

/-- Only functions of the catalogue are found used. -/
theorem function_mem_names (known : Register String) (root : Site) :
    ∀ u ∈ uses known root, u.function ∈ known.names := by
  intro u hu
  rcases List.mem_append.mp hu with hu | hu
  · obtain ⟨c, -, hu⟩ := List.mem_flatMap.mp hu
    obtain ⟨name, hname, rfl⟩ := List.mem_map.mp hu
    exact List.mem_of_mem_filter hname
  · obtain ⟨call, hcall, rfl⟩ := List.mem_map.mp hu
    obtain ⟨⟨caller, definition⟩, -, hcall⟩ := List.mem_flatMap.mp hcall
    dsimp only at hcall
    split at hcall
    · cases hcall
    · obtain ⟨name, hname, rfl⟩ := List.mem_map.mp hcall
      exact List.mem_of_mem_filter hname

theorem mem_activeNames {all : List Use} {calls : List (String × String)} {name : String} :
    name ∈ activeNames all calls ↔
      name ∈ all.map (·.function) ∧ onlyItself calls name = false := by
  rw [activeNames, List.mem_filter, mem_distinct, Bool.not_eq_true']

theorem names_activeRows (all : List Use) (calls : List (String × String)) :
    ((activeRows all calls).map Row.function).Perm (activeNames all calls) := by
  refine ((sortBy_perm _ _).map Row.function).trans ?_
  rw [List.map_map]
  exact .of_eq (List.map_id _)

section Known

variable {known : Register String} {all : List Use} (hall : ∀ u ∈ all, u.function ∈ known.names)
  (calls : List (String × String))

include hall

/-- A function of the catalogue is unused or active, and no other function is. -/
theorem mem_unused_or_active {name : String} :
    name ∈ unusedNames known all calls ∨ name ∈ activeNames all calls ↔ name ∈ known.names := by
  have hknown : name ∈ all.map (·.function) → name ∈ known.names := fun h => by
    obtain ⟨u, hu, rfl⟩ := List.mem_map.mp h
    exact hall u hu
  rw [mem_activeNames, unusedNames, List.mem_filter, Bool.or_eq_true, Bool.not_eq_true',
    ← Bool.not_eq_true, List.contains_iff_mem, mem_distinct]
  by_cases hused : name ∈ all.map (·.function) <;> by_cases honly : onlyItself calls name = true <;>
    simp_all

omit hall in
/-- No function is both unused and active. -/
theorem disjoint_unused_active :
    (unusedNames known all calls).Disjoint (activeNames all calls) := by
  intro name hunused hactive
  rw [mem_activeNames] at hactive
  rw [unusedNames, List.mem_filter, Bool.or_eq_true, Bool.not_eq_true', ← Bool.not_eq_true,
    List.contains_iff_mem, mem_distinct, hactive.2] at hunused
  exact hunused.2.elim (fun h => h hactive.1) (by simp)

/-- The rows name the functions of the catalogue, each once. -/
theorem names_rowsOf_perm (hnodup : known.names.Nodup) :
    ((rowsOf known all calls).map Row.function).Perm known.names := by
  have hnames : ((rowsOf known all calls).map Row.function).Perm
      (unusedNames known all calls ++ activeNames all calls) := by
    rw [rowsOf_eq, List.map_append, List.map_map]
    refine List.Perm.append ?_ (names_activeRows all calls)
    exact (List.Perm.of_eq (List.map_id _)).trans (sortBy_perm id _)
  have hboth : (unusedNames known all calls ++ activeNames all calls).Nodup :=
    List.Nodup.append (hnodup.filter _) ((nodup_distinct _).filter _) (disjoint_unused_active calls)
  refine hnames.trans ((List.perm_ext_iff_of_nodup hboth hnodup).mpr fun name => ?_)
  rw [List.mem_append]
  exact mem_unused_or_active hall calls

end Known

/-! ## Order -/

/-- Distinct texts stand in strictly ascending order after sorting. -/
theorem sorted_pairwise {xs : List String} (hnodup : xs.Nodup) :
    (sorted xs).Pairwise (· < ·) := by
  have hdistinct : (sorted xs).Nodup := (sortBy_perm id _).nodup_iff.mpr hnodup
  refine ((sortBy_pairwise id xs).and hdistinct).imp fun {a b} h => ?_
  exact lt_of_le_of_ne (compare_le_iff_le.mp (Ordering.isLE_iff_ne_gt.mp h.1)) h.2

theorem unused_pairwise {known : Register String} (hnodup : known.names.Nodup) (all : List Use)
    (calls : List (String × String)) :
    (sorted (unusedNames known all calls)).Pairwise (· < ·) :=
  sorted_pairwise (hnodup.filter _)

/-- The row of a function with more uses comes first; of two with equally many it is the row of the
function that was found used first. -/
theorem active_pairwise (all : List Use) (calls : List (String × String)) :
    (activeRows all calls).Pairwise fun a b =>
      b.count < a.count ∨
        a.count = b.count ∧ firstFound all a.function < firstFound all b.function := by
  have hfound : ((activeNames all calls).map (activeRow all calls)).Pairwise fun a b =>
      firstFound all a.function < firstFound all b.function :=
    List.pairwise_map.mpr ((pairwise_distinct (all.map Use.function)).filter _)
  refine (sortBy_pairwise_then _ hfound).imp fun {a b} h => ?_
  simp only [compare_lt_iff_lt, compare_eq_iff_eq] at h
  omega

/-- A row that shows a function as active tells all of its uses, of which there is one. -/
theorem count_of_mem_activeRows {all : List Use} {calls : List (String × String)} {r : Row}
    (hr : r ∈ activeRows all calls) :
    r.active = true ∧ r.count = (all.filter (·.function == r.function)).length ∧ 1 ≤ r.count := by
  obtain ⟨name, hname, rfl⟩ := List.mem_map.mp (mem_sortBy.mp hr)
  refine ⟨rfl, rfl, ?_⟩
  obtain ⟨u, hu, rfl⟩ := List.mem_map.mp (mem_activeNames.mp hname).1
  exact List.length_pos_of_mem (List.mem_filter.mpr ⟨hu, beq_self_eq_true _⟩)

/-! ## The report -/

/-- **Each function has one row, unused functions first.** For every document that can be read the
audit completes. It has one row for each name of a function in a catalogue below the root and no
other row. The rows of unused functions come first, in ascending order of the names; those of active
ones follow, by decreasing number of uses and then in the order in which the functions were first
found used. -/
theorem one_row_for_each_function {raw : String} {root : Site}
    (hopen : openDocument "findall" raw = .ok root) :
    (∀ line ∈ (audit raw).log, beginsWith "Error in CustomFunctionUsageCheck: " line = false) ∧
    ∃ unused active : List Row,
      (audit raw).rows = (unused ++ active).map Row.cells ∧
      ((unused ++ active).map Row.function).Nodup ∧
      (∀ name, name ∈ (unused ++ active).map Row.function ↔ DeclaresFunction root name) ∧
      (∀ r ∈ unused, r.cells.lookup "Status" = some (.text "Unused") ∧ r.count = 0) ∧
      (∀ r ∈ active, r.cells.lookup "Status" = some (.text "Active") ∧ 1 ≤ r.count ∧
        r.count = ((uses (functions root) root).filter (·.function == r.function)).length) ∧
      (unused.map Row.function).Pairwise (· < ·) ∧
      active.Pairwise fun a b => b.count < a.count ∨ a.count = b.count ∧
        firstFound (uses (functions root) root) a.function <
          firstFound (uses (functions root) root) b.function := by
  have hnodup : (functions root).names.Nodup := Register.nodup_names_ofList _
  have hperm := names_rowsOf_perm (function_mem_names (functions root) root)
    (calls (functions root)) hnodup
  refine ⟨?_, _, _, audit_rows hopen, hperm.nodup_iff.mpr hnodup, fun name => ?_, ?_, ?_, ?_,
    active_pairwise _ _⟩
  · have hfound : ∀ n : Nat, beginsWith "Error in CustomFunctionUsageCheck: "
        s!"Found {n} custom functions" = false := fun n =>
      beginsWith_eq_false_of_clash "Found " (beginsWith_append₂ (by decide) _ _)
        (by decide)
    rw [audit, hopen]
    simp only [List.forall_mem_cons, hfound]
    decide
  · exact hperm.mem_iff.trans declaresFunction_iff.symm
  · intro r hr
    obtain ⟨name, -, rfl⟩ := List.mem_map.mp hr
    exact ⟨rfl, rfl⟩
  · intro r hr
    obtain ⟨hactive, hcount, hpos⟩ := count_of_mem_activeRows hr
    refine ⟨?_, hpos, hcount⟩
    show some (Sheet.Cell.text (if r.active then "Active" else "Unused")) = _
    rw [hactive, if_pos rfl]
  · rw [List.map_map]
    exact (List.map_id _).symm ▸ unused_pairwise hnodup _ _

/-- A report with two functions that call each other, a third one that both a function and a
script use, and one without a name. -/
def mutualReport : String :=
  "<F><CustomFunctionCatalog><CustomFunction name='P'><Calculation>Q</Calculation>" ++
  "</CustomFunction><CustomFunction name='Q'><Calculation>P+R</Calculation></CustomFunction>" ++
  "<CustomFunction/><CustomFunction name='R'/></CustomFunctionCatalog>" ++
  "<Script><Calculation>R+Q</Calculation></Script></F>"

def mutualTree : Node :=
  plain "F" []
    [plain "CustomFunctionCatalog" []
      [plain "CustomFunction" [("name", "P")] [calculationOf "Q"],
       plain "CustomFunction" [("name", "Q")] [calculationOf "P+R"],
       plain "CustomFunction" [] [],
       plain "CustomFunction" [("name", "R")] []],
     plain "Script" [] [calculationOf "R+Q"]]

set_option maxRecDepth 20000 in
theorem read_mutual : read mutualReport = .ok (some mutualTree) :=
  (read_eq_of_toList (toList_append_of (toList_three _ _ _) String.toList_ofList) (by decide)
    (by rfl) (by rfl)).trans (by rfl)

/-- The four functions have four rows. Of those with two uses the one that was found first comes
first. -/
theorem mutual_rows :
    openDocument "findall" mutualReport = .ok (Site.root mutualTree) ∧
    (∀ line ∈ (audit mutualReport).log,
      beginsWith "Error in CustomFunctionUsageCheck: " line = false) ∧
    firstFound (uses (functions (Site.root mutualTree)) (Site.root mutualTree)) "Q" <
      firstFound (uses (functions (Site.root mutualTree)) (Site.root mutualTree)) "R" ∧
    ∃ unused active : List Row,
      (audit mutualReport).rows = (unused ++ active).map Row.cells ∧
      ((unused ++ active).map Row.function).Perm ["P", "Q", "Unknown Function", "R"] ∧
      (unused.map Row.function).Pairwise (· < ·) ∧
      active.Pairwise fun a b => b.count < a.count ∨ a.count = b.count ∧
        firstFound (uses (functions (Site.root mutualTree)) (Site.root mutualTree)) a.function <
          firstFound (uses (functions (Site.root mutualTree)) (Site.root mutualTree))
            b.function := by
  have hopen := openDocument_of_read read_mutual "findall"
  obtain ⟨hlog, unused, active, hrows, hnodup, hmem, -, -, hunused, hactive⟩ :=
    one_row_for_each_function hopen
  refine ⟨hopen, hlog, by decide +kernel, unused, active, hrows, ?_, hunused, hactive⟩
  have hnames : (functions (Site.root mutualTree)).names = ["P", "Q", "Unknown Function", "R"] := by
    decide +kernel
  refine (List.perm_ext_iff_of_nodup hnodup (by decide)).mpr fun name => ?_
  rw [hmem, declaresFunction_iff, hnames]

end DesignAudit.Function
