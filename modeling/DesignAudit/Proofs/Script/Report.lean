import DesignAudit.Proofs.Script.Placement
import DesignAudit.Script.Audit

/-!
# The rows of the script report

`reportRows` gives the rows of the report before they are turned into cells (`audit_rows`). There is
one row for each known script, and the callers it lists are those of the references that mean the
script: `mem_scripts_iff` goes from a row of the finished report back to a place of the document.
-/

namespace DesignAudit.Script

open Markup Text

/-! ## Known scripts -/

/-- The definitions that give their script a name. -/
def namedDefinitions (root : Site) : List Site :=
  (definitions root).filter fun s => definedName s != ""

theorem mem_namedDefinitions {root s : Site} :
    s ∈ namedDefinitions root ↔
      s ∈ root.all "Script" ∧ isDefinition s = true ∧ definedName s ≠ "" := by
  rw [namedDefinitions, definitions, List.mem_filter, List.mem_filter, bne_iff_ne, and_assoc]

/-- A script is known exactly if a definition bears its name. -/
theorem has_index_iff {root : Site} {name : String} :
    (Index.of root).has name = true ↔ ∃ d ∈ namedDefinitions root, definedName d = name := by
  rw [Index.has, Index.of, Register.has_ofList]
  constructor
  · rintro ⟨folder, h⟩
    obtain ⟨d, hd, heq⟩ := List.mem_map.mp h
    exact ⟨d, hd, (Prod.mk.inj heq).1⟩
  · rintro ⟨d, hd, rfl⟩
    exact ⟨_, List.mem_map.mpr ⟨d, hd, rfl⟩⟩

/-- The script with an id is that of the last definition with this id. -/
theorem byId_get? (root : Site) (id : String) :
    (Index.of root).byId.get? id =
      ((namedDefinitions root).filterMap fun s =>
        (s.node.named? "id").map (·, definedName s)).reverse.lookup id :=
  Register.get?_ofList _ id

theorem mem_of_byId_get? {root : Site} {id name : String}
    (h : (Index.of root).byId.get? id = some name) :
    ∃ d ∈ namedDefinitions root, d.node.named? "id" = some id ∧ definedName d = name := by
  rw [byId_get?] at h
  obtain ⟨x, y, hsplit, -⟩ := List.lookup_eq_some_iff.mp h
  have hmem : (id, name) ∈ ((namedDefinitions root).filterMap fun s =>
      (s.node.named? "id").map (·, definedName s)) := by
    rw [← List.mem_reverse, hsplit]
    simp
  obtain ⟨d, hd, heq⟩ := List.mem_filterMap.mp hmem
  obtain ⟨id', hid, hpair⟩ := Option.map_eq_some_iff.mp heq
  obtain ⟨rfl, rfl⟩ := Prod.mk.inj hpair
  exact ⟨d, hd, hid, rfl⟩

/-- A reference means known scripts only. -/
theorem has_of_resolve? {root : Site} {n : Node} {name : String}
    (h : (Index.of root).resolve? n = some name) : (Index.of root).has name = true := by
  rw [Index.resolve?] at h
  split at h
  · rename_i other hid
    obtain rfl := Option.some.inj h
    obtain ⟨id, -, hget⟩ := Option.bind_eq_some_iff.mp hid
    obtain ⟨d, hd, -, hname⟩ := mem_of_byId_get? hget
    exact has_index_iff.mpr ⟨d, hd, hname⟩
  · exact (Option.filter_eq_some_iff.mp h).2

/-! ## Rows -/

theorem special?_ne {name folder : String} {status : Status}
    (h : special? name folder = some status) :
    status ≠ .unused ∧ status ≠ .checkManually := by
  rw [special?] at h
  repeat' split at h
  all_goals cases h
  all_goals exact ⟨nofun, nofun⟩

/-- A script with uses is never reported as unused or as one to be checked. -/
theorem statusOf_ne {name folder : String} {uses : Nat} (h : 1 ≤ uses) (count : Nat) :
    statusOf name folder uses count ≠ .unused ∧
      statusOf name folder uses count ≠ .checkManually := by
  rw [statusOf]
  split
  · rename_i s hs
    exact special?_ne hs
  · rw [if_neg (by omega)]
    exact ⟨nofun, nofun⟩

/-- The calls of scripts from web pages are entered among the other ones. -/
def webUse (call : String × String) : Use :=
  ⟨call.1, .other, "JavaScript in Web Viewer - " ++ call.2⟩

theorem enterWebCalls_eq (usages : Register Usage) (calls : List (String × String)) :
    enterWebCalls usages calls = recordAll usages (calls.map webUse) := by
  rw [enterWebCalls, recordAll, List.foldl_map]
  rfl

/-- The tallies of names, from the search in a text. -/
def talliesOf (debug : Bool) (names : List String) (text : List Char) : Register Tally :=
  tallied (if debug then some (.of text) else none) names (occurrences names text)

theorem arranged_perm (rows : List Row) : (arranged rows).Perm rows :=
  ((sortBy_perm _ _).trans (sortBy_perm _ _)).trans (sortBy_perm _ _)

theorem arranged_nil : arranged [] = [] :=
  (arranged_perm []).eq_nil

theorem mem_arranged {rows : List Row} {r : Row} : r ∈ arranged rows ↔ r ∈ rows :=
  (arranged_perm rows).mem_iff

section

variable [Marks]

def reportRows (debug : Bool) (raw : String) : List Row :=
  match openDocument "findall" raw with
  | .error _ => []
  | .ok root =>
    let i := Index.of root
    match referenceUsages i root with
    | .error _ => []
    | .ok usages =>
      arranged (i.names.map (rowOf i (enterWebCalls usages (webUses i root))
        (talliesOf debug i.names raw.toList) debug))

/-- The audit shows the rows of the report. -/
theorem audit_rows (debug : Bool) (raw : String) :
    (audit debug raw).rows = (reportRows debug raw).map Row.cells := by
  rw [audit, reportRows]
  cases openDocument "findall" raw with
  | error fault => rfl
  | ok root =>
    simp only
    split
    · rename_i hempty
      have hnil : (Index.of root).names = [] := List.isEmpty_iff.mp hempty
      cases referenceUsages (Index.of root) root with
      | error fault => rfl
      | ok usages =>
        simp only [hnil, List.map_nil, arranged_nil]
        rfl
    · cases referenceUsages (Index.of root) root with
      | error fault => rfl
      | ok usages => rfl

theorem reportRows_eq (debug : Bool) {raw : String} {root : Site} {usages : Register Usage}
    (hopen : openDocument "findall" raw = .ok root)
    (husages : referenceUsages (Index.of root) root = .ok usages) :
    reportRows debug raw = arranged ((Index.of root).names.map
      (rowOf (Index.of root) (enterWebCalls usages (webUses (Index.of root) root))
        (talliesOf debug (Index.of root).names raw.toList) debug)) := by
  rw [reportRows, hopen]
  simp only [husages]

/-- Each row of the report is that of a known script, made from the entries of the whole document.
-/
theorem mem_reportRows (debug : Bool) {raw : String} {root : Site}
    (hroot : openDocument "findall" raw = .ok root) {r : Row} :
    r ∈ reportRows debug raw ↔ ∃ usages, referenceUsages (Index.of root) root = .ok usages ∧
      ∃ name, (Index.of root).has name = true ∧
        r = rowOf (Index.of root) (enterWebCalls usages (webUses (Index.of root) root))
          (talliesOf debug (Index.of root).names raw.toList) debug name := by
  cases husages : referenceUsages (Index.of root) root with
  | error fault =>
    rw [reportRows, hroot]
    simp [husages]
  | ok usages =>
    rw [reportRows_eq debug hroot husages]
    simp only [mem_arranged, List.mem_map, Except.ok.injEq, exists_eq_left']
    constructor
    · rintro ⟨name, hname, rfl⟩
      exact ⟨name, Register.mem_names_iff.mp hname, rfl⟩
    · rintro ⟨name, hname, rfl⟩
      exact ⟨name, Register.mem_names_iff.mpr hname, rfl⟩

/-- The report lists `caller` among the scripts that call `callee`, and `callee` as used. -/
def ListsCaller (debug : Bool) (raw caller callee : String) : Prop :=
  ∃ r ∈ reportRows debug raw, r.cells ∈ (audit debug raw).rows ∧ r.name = callee ∧ 1 ≤ r.total ∧
    caller ∈ r.scripts ∧ r.status ≠ .unused ∧ r.status ≠ .checkManually

/-- The callers of a script that are scripts stem from references: a call from a web page is entered
in another list. -/
theorem mem_scripts_iff {root : Site} {usages : Register Usage}
    (husages : referenceUsages (Index.of root) root = .ok usages) {caller callee : String} :
    caller ∈ ((enterWebCalls usages (webUses (Index.of root) root)).getD callee {}).scripts ↔
      ∃ s ∈ references root, (Index.of root).resolve? s.node = some callee ∧
        callingScript? (Index.of root) s = some caller := by
  obtain ⟨uses, huses, rfl⟩ := enterAll_eq_ok_iff.mp husages
  have hscripts :
      ((enterWebCalls (recordAll .empty uses) (webUses (Index.of root) root)).getD callee {}).scripts =
        usesBy (uses ++ (webUses (Index.of root) root).map webUse) callee .script := by
    rw [enterWebCalls_eq, ← recordAll_append]
    exact by_recordAll .empty _ callee .script
  have hweb : (⟨callee, .script, caller⟩ : Use) ∉ (webUses (Index.of root) root).map webUse := by
    rw [List.mem_map]
    rintro ⟨call, -, h⟩
    cases h
  rw [hscripts, mem_usesBy, List.mem_append, or_iff_left hweb, mem_uses_iff huses]
  simp only [fits_script_iff]

/-- A caller is listed exactly if all references can be placed and one of them means the script and
stands in a step that the caller performs. -/
theorem listsCaller_iff {debug : Bool} {raw caller callee : String} {root : Site}
    (hroot : openDocument "findall" raw = .ok root) :
    ListsCaller debug raw caller callee ↔ AllPlaced root ∧ ∃ s ∈ references root,
      (Index.of root).resolve? s.node = some callee ∧
        callingScript? (Index.of root) s = some caller := by
  constructor
  · rintro ⟨r, hr, -, hname, -, hcaller, -, -⟩
    obtain ⟨usages, husages, name, -, rfl⟩ := (mem_reportRows debug hroot).mp hr
    obtain rfl : name = callee := hname
    exact ⟨exists_referenceUsages_iff.mp ⟨usages, husages⟩, (mem_scripts_iff husages).mp hcaller⟩
  · rintro ⟨hplaced, hcalled⟩
    obtain ⟨usages, husages⟩ := exists_referenceUsages_iff.mpr hplaced
    have hcaller := (mem_scripts_iff husages).mpr hcalled
    obtain ⟨s, -, hmeans, -⟩ := hcalled
    have htotal := Nat.le_trans (List.length_pos_of_mem hcaller)
      (length_by_le_total _ (show Caller.script ≠ .unknown from nofun))
    have hrow := (mem_reportRows debug hroot).mpr
      ⟨usages, husages, callee, has_of_resolve? hmeans, rfl⟩
    refine ⟨_, hrow, ?_, rfl, htotal, hcaller, statusOf_ne htotal _⟩
    rw [audit_rows]
    exact List.mem_map_of_mem hrow

end

end DesignAudit.Script
