import DesignAudit.Proofs.Script.Rows
import Mathlib.Algebra.BigOperators.Group.List.Basic
import Mathlib.Algebra.GroupWithZero.Nat
import Mathlib.Data.List.Count

/-!
# Every reference counts once

Each reference that means a script makes one entry in one of the eight lists of that script and
leaves all other lists alone (`exists_adds_of_enterAll`). The lists of all scripts together
therefore hold as many entries as references and calls from web pages were found (`sum_usesOf`), and
so do the rows of the report, each of which counts the entries of its lists
(`references_conserved`).
-/

namespace DesignAudit.Script

open Markup Text Traversal

/-! ## All entries -/

/-- The uses of a script, by whatever caller. -/
def usesOf (uses : List Use) (name : String) : List Use := uses.filter (·.script == name)

theorem sum_map_beq (name : String) (names : List String) :
    (names.map fun n => if name == n then 1 else 0).sum = names.count name := by
  induction names with
  | nil => rfl
  | cons n names ih =>
    rw [List.map_cons, List.sum_cons, ih, List.count_cons, Nat.add_comm, BEq.comm]

/-- Among names without repetition each use belongs to one. -/
theorem sum_usesOf {names : List String} (hnodup : names.Nodup) {uses : List Use}
    (hnames : ∀ u ∈ uses, u.script ∈ names) :
    (names.map fun name => (usesOf uses name).length).sum = uses.length := by
  induction uses with
  | nil => simp [usesOf]
  | cons u uses ih =>
    rw [List.forall_mem_cons] at hnames
    have hcons : ∀ name, (usesOf (u :: uses) name).length =
        (usesOf uses name).length + if u.script == name then 1 else 0 := by
      intro name
      rw [usesOf, List.filter_cons]
      split <;> rfl
    have hone : (names.map fun name => if u.script == name then 1 else 0).sum = 1 :=
      (sum_map_beq u.script names).trans (List.count_eq_one_of_mem hnodup hnames.1)
    simp only [hcons, List.sum_map_add, ih hnames.2, hone, List.length_cons]

/-- Each use of a script is by one kind of caller. -/
theorem sum_length_usesBy (uses : List Use) (name : String) :
    knownCallers.foldr (fun c n => (usesBy uses name c).length + n) 0 +
      (usesBy uses name .unknown).length = (usesOf uses name).length := by
  simp only [knownCallers, List.foldr_cons, List.foldr_nil, usesBy, usesOf, List.length_map]
  induction uses with
  | nil => rfl
  | cons u uses ih =>
    by_cases hname : u.script = name
    · cases hcaller : u.caller <;> simp_all <;> omega
    · simp_all

/-- The number of uses of a script and its entries of unknown use come to the number of its entries.
-/
theorem total_add_unknown (uses : List Use) (name : String) :
    ((recordAll .empty uses).getD name {}).total +
      ((recordAll .empty uses).getD name {}).unknown.length = (usesOf uses name).length := by
  have hby : ∀ kind, ((recordAll .empty uses).getD name {}).by kind = usesBy uses name kind := by
    intro kind
    rw [by_recordAll]
    cases kind <;> rfl
  have hunknown : ((recordAll .empty uses).getD name {}).unknown = usesBy uses name .unknown :=
    hby .unknown
  rw [← sum_length_usesBy, Usage.total, hunknown]
  simp only [hby]

/-- A row shows the eight lists of its script, three of them joined, and counts the entries of all
lists but that of the unknown uses. -/
structure Shows (r : Row) (u : Usage) : Prop where
  scripts : r.scripts = u.scripts
  buttons : r.buttons = u.buttons
  triggers : r.triggers = u.triggers
  menus : r.menus = u.menus
  others : r.others = u.valueLists ++ u.webViewers ++ u.others
  unknown : r.unknown = u.unknown
  total : r.total = u.scripts.length + u.buttons.length + u.triggers.length + u.menus.length +
    u.valueLists.length + u.webViewers.length + u.others.length

theorem shows_rowOf (i : Index) (usages : Register Usage) (tallies : Register Tally)
    (tracing : Bool) (name : String) :
    Shows (rowOf i usages tallies tracing name) (usages.getD name {}) where
  scripts := rfl
  buttons := rfl
  triggers := rfl
  menus := rfl
  others := rfl
  unknown := rfl
  total := by
    show (usages.getD name {}).total = _
    simp only [Usage.total, knownCallers, List.foldr_cons, List.foldr_nil, Usage.by]
    omega

/-- The names that a step in a web viewer marks as those of scripts, whether such scripts are known
or not. -/
def markedNames (s : Site) : List String :=
  (((s.first? "StepText").bind (·.node.written?)).map fun t =>
    (markedNamePattern.findFirst t.toList).map String.ofList).getD []

theorem webCalls_eq (i : Index) (s : Site) :
    webCalls i s = ((markedNames s).filter i.has).map (·, webContext s) := by
  rw [webCalls, markedNames]
  cases (s.first? "StepText").bind (·.node.written?) with
  | none => rfl
  | some t => rfl

theorem length_webUses (i : Index) (root : Site) :
    (webUses i root).length = ((webSteps root).flatMap markedNames).countP i.has := by
  rw [webUses, List.length_flatMap, List.countP_flatMap]
  congr 1
  refine List.map_congr_left fun s _ => ?_
  rw [webCalls_eq, List.length_map, Function.comp_apply, List.countP_eq_length_filter]

/-- Only known scripts have entries. -/
theorem mem_names_of_mem_uses [Marks] {root : Site} {uses : List Use}
    (huses : List.Forall₂ (Enters (checks (Index.of root))) (resolved (Index.of root) root) uses) :
    ∀ u ∈ uses ++ (webUses (Index.of root) root).map webUse, u.script ∈ (Index.of root).names := by
  rw [List.forall_mem_append, List.forall_mem_map]
  constructor
  · intro u hu
    obtain ⟨s, -, hmeans, -⟩ := (mem_uses_iff huses).mp hu
    exact Register.mem_names_iff.mpr (has_of_resolve? hmeans)
  · intro call hcall
    obtain ⟨s, -, hcall⟩ := List.mem_flatMap.mp hcall
    rw [webCalls_eq] at hcall
    obtain ⟨name, hname, rfl⟩ := List.mem_map.mp hcall
    exact Register.mem_names_iff.mpr (List.mem_filter.mp hname).2

/-- The rows of a report together have as many entries as references and calls from web pages were
found. -/
theorem sum_total_reportRows [Marks] (debug : Bool) {raw : String} {root : Site}
    {usages : Register Usage} (hopen : openDocument "findall" raw = .ok root)
    (husages : referenceUsages (Index.of root) root = .ok usages) :
    ((reportRows debug raw).map Row.total).sum +
        ((reportRows debug raw).map fun r => r.unknown.length).sum =
      (resolved (Index.of root) root).length + (webUses (Index.of root) root).length := by
  obtain ⟨uses, huses, rfl⟩ := enterAll_eq_ok_iff.mp husages
  have hnodup : (Index.of root).names.Nodup := Register.nodup_names_ofList _
  have hsum := sum_usesOf hnodup (mem_names_of_mem_uses huses)
  rw [List.length_append, List.length_map, ← huses.length_eq] at hsum
  rw [← hsum, ← List.sum_map_add, reportRows_eq debug hopen husages, enterWebCalls_eq,
    ← recordAll_append]
  -- there is one row for each known script, so the sums over rows are sums over names
  rw [((arranged_perm _).map _).sum_eq, List.map_map]
  exact congrArg List.sum (List.map_congr_left fun name _ => total_add_unknown _ name)

/-- **References are conserved.** Let an audit write no error. Then each reference that it goes
through makes one entry, in one of the eight lists of the script that it means, and changes no other
list. The rows of the report show the lists and count their entries. So the numbers of uses of all
rows, together with the entries of unknown use, come to the number of references and of the marked
names of known scripts in web viewers. Where definitions are known again by their marks, the
references are the elements that define nothing and mean a known script. -/
theorem references_conserved [Marks] (debug : Bool) {raw : String}
    (hdone : ∀ line ∈ (audit debug raw).log,
      beginsWith "Error in UnusedScriptsCheck: " line = false) :
    ∃ root usages, openDocument "findall" raw = .ok root ∧
      referenceUsages (Index.of root) root = .ok usages ∧
      (∀ earlier s script later,
        resolved (Index.of root) root = earlier ++ (s, script) :: later →
          ∃ before after, enterAll (checks (Index.of root)) .empty earlier = .ok before ∧
            enter s script (checks (Index.of root)) before = .ok after ∧
            enterAll (checks (Index.of root)) after later = .ok usages ∧
            ∃ caller text, Adds before after script caller text) ∧
      (audit debug raw).rows = (reportRows debug raw).map Row.cells ∧
      (∀ r ∈ reportRows debug raw,
        r.cells.lookup "Total Usage" = some (.whole r.total) ∧
        Shows r ((enterWebCalls usages (webUses (Index.of root) root)).getD r.name {})) ∧
      ((reportRows debug raw).map Row.total).sum +
          ((reportRows debug raw).map fun r => r.unknown.length).sum =
        (resolved (Index.of root) root).length +
          ((webSteps root).flatMap markedNames).countP (Index.of root).has ∧
      (Marks.Faithful root → resolved (Index.of root) root =
        ((root.all "Script").filter fun s => !isDefinition s).filterMap fun s =>
          ((Index.of root).resolve? s.node).map (s, ·)) := by
  obtain ⟨root, usages, hopen, husages⟩ := referenceUsages_of_no_error debug hdone
  refine ⟨root, usages, hopen, husages, fun earlier s script later hsplit => ?_,
    audit_rows debug raw, fun r hr => ⟨rfl, ?_⟩, ?_, fun hmarks => ?_⟩
  · rw [referenceUsages, hsplit] at husages
    exact exists_adds_of_enterAll husages
  · obtain ⟨usages', husages', name, -, rfl⟩ := (mem_reportRows debug hopen).mp hr
    obtain rfl : usages = usages' := Except.ok.inj (husages.symm.trans husages')
    exact shows_rowOf _ _ _ _ name
  · rw [← length_webUses]
    exact sum_total_reportRows debug hopen husages
  · rw [resolved, hmarks.references_eq]

/-- A report with one script. A layout refers to it by its id, and an element outside of any context
by its name; a step in a web viewer marks its name. Another element refers to a script that is not
there. -/
def countedReport : String :=
  "<F><Script id='1' name='A'><Step id='175'><StepText>'A' &quot;A&quot;/*fmScript</StepText>" ++
  "</Step></Script><Layout name='L'><Script id='1'/></Layout><Script name='A'/>" ++
  "<Script name='Z'/></F>"

def countedTree : Node :=
  let text := Node.mk .element "StepText" [] (some "'A' \"A\"/*fmScript") 1 []
  plain "F" []
    [plain "Script" [("id", "1"), ("name", "A")] [plain "Step" [("id", "175")] [text]],
     plain "Layout" [("name", "L")] [plain "Script" [("id", "1")] []],
     plain "Script" [("name", "A")] [], plain "Script" [("name", "Z")] []]

set_option maxRecDepth 20000 in
theorem read_counted : read countedReport = .ok (some countedTree) :=
  (read_eq_of_toList (toList_three _ _ _) (by decide) (by rfl) (by rfl)).trans (by rfl)

theorem counted_done : ∀ line ∈ (audit false countedReport).log,
    beginsWith "Error in UnusedScriptsCheck: " line = false := by
  have hopen := openDocument_of_read read_counted "findall"
  have hdeep : DeepFields (Site.root countedTree) := by decide
  obtain ⟨usages, husages⟩ :=
    exists_referenceUsages_iff.mpr (hdeep.allPlaced (above_of_openDocument hopen))
  exact fun line hline => beginsWith_eq_false_of_opensWith (by decide)
    (opens_of_mem_log false hopen (index_names_ne_nil (by decide)) husages line hline)

/-- Of the three elements that define nothing two mean a known script, which a web viewer calls
once. -/
theorem counted_references :
    ((Site.root countedTree).all "Script").countP (fun s => !isDefinition s) = 3 ∧
    ((reportRows false countedReport).map Row.total).sum +
      ((reportRows false countedReport).map fun r => r.unknown.length).sum = 3 := by
  obtain ⟨root, usages, hopen, -, -, -, -, hsum, hresolved⟩ :=
    references_conserved false counted_done
  obtain rfl : Site.root countedTree = root :=
    Except.ok.inj ((openDocument_of_read read_counted "findall").symm.trans hopen)
  rw [hresolved (faithful_address _)] at hsum
  exact ⟨by decide +kernel, hsum.trans (by decide +kernel)⟩

end DesignAudit.Script
