import DesignAudit.Proofs.Markup.Reader
import DesignAudit.Proofs.Script.Report

/-!
# Calls between scripts

A script that performs another one refers to it by an empty element inside of a step. Such an
element is a reference only as long as no list of scripts is near: within ten levels of one it
passes for a definition itself, and the call is not counted. The scripts of a report stand in such a
list, so that a call counts only where folders or other elements keep it ten levels away.

`listsCaller_of_performs_iff` says exactly which calls make a caller appear in the row of the script
that it calls.
-/

namespace DesignAudit.Script

open Markup Text

/-! ## Definitions and references -/

/-- One of the ten nearest elements around a place is a list of scripts. -/
def NearList (s : Site) : Prop :=
  ∃ n ∈ s.above.take 10, n.tag = "Scripts" ∨ n.tag = "ScriptCatalog" ∨ n.tag = "ScriptList"

theorem isListed_iff {s : Site} : isListed s = true ↔ NearList s := by
  rw [isListed, List.any_eq_true]
  simp only [List.contains_cons, List.contains_nil, Bool.or_false, Bool.or_eq_true, beq_iff_eq,
    NearList]

/-- An element that is taken for a reference: it only grants access, or it has no steps and no list
of scripts is near. -/
def InSight (s : Site) : Prop :=
  (s.holds "Access" = true ∧ s.holds "StepList" = false) ∨
    (s.holds "Step" = false ∧ ¬ NearList s)

theorem isDefinition_eq_false_iff {s : Site} : isDefinition s = false ↔ InSight s := by
  rw [isDefinition, InSight, ← isListed_iff, grantsAccess]
  cases s.holds "Access" <;> cases s.holds "StepList" <;> cases s.holds "Step" <;> simp

theorem mem_references {root s : Site} :
    s ∈ references root ↔ s ∈ root.all "Script" ∧ InSight s := by
  rw [(faithful_address root).references_eq, List.mem_filter, Bool.not_eq_true',
    isDefinition_eq_false_iff]

/-- An empty element is a reference exactly if no list of scripts is near. -/
theorem inSight_iff_of_children {s : Site} (h : s.node.children = []) :
    InSight s ↔ ¬ NearList s := by
  have hnot : ∀ name, s.holds name = false := fun name => by
    rw [Site.holds, Site.below_eq_nil_of_children h, List.any_nil]
  simp [InSight, hnot]

/-- An element with a list of steps and a step defines a script, wherever it stands. -/
theorem isDefinition_of_steps {s l : Site} (hl : l ∈ s.all "StepList") {st : Site}
    (hst : st ∈ l.all "Step") : isDefinition s = true := by
  have hstep : s.holds "Step" = true := Site.holds_iff.mpr
    ⟨st, Site.below_trans (Site.mem_all.mp hl).1 (Site.mem_all.mp hst).1, (Site.mem_all.mp hst).2⟩
  have hlist : s.holds "StepList" = true := Site.holds_iff.mpr ⟨l, Site.mem_all.mp hl⟩
  simp [isDefinition, grantsAccess, hstep, hlist]

/-! ## Who performs a step -/

def IsPerforming (step : Node) : Prop :=
  step.tag = "Step" ∧
    (step.attr "id" = "1" ∨ step.attr "id" = "164" ∨
      has "Perform Script" (step.attr "name") = true)

/-- Of the known scripts among the twenty-five nearest elements around a place, the innermost one is
`caller`. -/
def IsInnermost (root s : Site) (caller : String) : Prop :=
  ∃ inner script outer, s.above.take 25 = inner ++ script :: outer ∧
    script.tag = "Script" ∧ script.named? "name" = some caller ∧
    (Index.of root).has caller = true ∧
    ∀ n ∈ inner, n.tag = "Script" → ∀ name, n.named? "name" = some name →
      (Index.of root).has name = false

theorem callingScript?_eq_some_iff {root s : Site} {caller : String} :
    callingScript? (Index.of root) s = some caller ↔
      (∃ step, s.parent? = some step ∧ IsPerforming step) ∧ IsInnermost root s caller := by
  rw [callingScript?]
  cases hparent : s.parent? with
  | none => simp
  | some step =>
    have hcond : (step.tag == "Step" && (["1", "164"].contains (step.attr "id") ||
        has "Perform Script" (step.attr "name"))) = true ↔ IsPerforming step := by
      simp only [Bool.and_eq_true, Bool.or_eq_true, beq_iff_eq, List.contains_cons,
        List.contains_nil, Bool.or_false, or_assoc, IsPerforming]
    by_cases hp : IsPerforming step
    · simp only [hcond.mpr hp, if_true, Option.some.injEq, exists_eq_left', hp, true_and]
      rw [List.findSome?_eq_some_iff, IsInnermost]
      refine exists_congr fun inner => exists_congr fun script => exists_congr fun outer =>
        and_congr_right fun _ => ?_
      constructor
      · rintro ⟨hscript, hinner⟩
        rw [Option.ite_none_right_eq_some, beq_iff_eq, Option.filter_eq_some_iff] at hscript
        refine ⟨hscript.1, hscript.2.1, hscript.2.2, fun n hn htag name hname => ?_⟩
        have hnone := hinner n hn
        simpa [htag, hname] using hnone
      · rintro ⟨htag, hname, hknown, hinner⟩
        refine ⟨by simp [htag, hname, hknown], fun n hn => ?_⟩
        by_cases hn' : n.tag = "Script"
        · rw [if_pos (beq_iff_eq.mpr hn'), Option.filter_eq_none_iff]
          intro name hname
          simp [hinner n hn hn' name hname]
        · rw [if_neg (mt beq_iff_eq.mp hn')]
    · simp only [if_neg (mt hcond.mp hp), reduceCtorEq, Option.some.injEq, exists_eq_left', hp,
        false_and]

/-! ## The call that a report shows -/

def IsLastOfId (root : Site) (id name : String) : Prop :=
  ∃ earlier d later, namedDefinitions root = earlier ++ d :: later ∧
    d.node.named? "id" = some id ∧ definedName d = name ∧
    ∀ e ∈ later, e.node.named? "id" ≠ some id

theorem byId_get?_eq_some_iff {root : Site} {id name : String} :
    (Index.of root).byId.get? id = some name ↔ IsLastOfId root id name := by
  refine Register.get?_ofList_filterMap.trans ?_
  refine exists_congr fun earlier => exists_congr fun d => exists_congr fun later =>
    and_congr_right fun _ => ?_
  simp only [Option.map_eq_some_iff, Prod.mk.injEq, ne_eq, not_exists, not_and]
  constructor
  · rintro ⟨⟨other, hid, rfl, hname⟩, hlater⟩
    exact ⟨hid, hname, fun e he heq => hlater e he _ _ heq rfl rfl⟩
  · rintro ⟨hid, hname, hlater⟩
    refine ⟨⟨id, hid, rfl, hname⟩, fun e he b other heq hother _ => hlater e he ?_⟩
    rw [heq, hother]

/-- A place at which `caller` calls `callee`, whether it is in sight or not. -/
structure IsCallSite (root s : Site) (caller callee : String) : Prop where
  element : s ∈ root.all "Script"
  step : ∃ step, s.parent? = some step ∧ IsPerforming step
  innermost : IsInnermost root s caller
  means : (Index.of root).resolve? s.node = some callee

/-- A call as it is written in a report: the script element `a` of the name `caller` stands in a
list of scripts and has a step that performs a script, with the empty element `r` in it; `r` bears
the name and the id of the script element `b`, which has steps and stands in a list of scripts too.
-/
structure Performs (root a r b : Site) (caller callee : String) : Prop where
  caller_element : a ∈ root.all "Script"
  caller_name : a.node.attr? "name" = some caller
  caller_listed : ∃ n ∈ a.above, n.tag = "ScriptCatalog" ∨ n.tag = "Scripts"
  step : ∃ l ∈ a.all "StepList", ∃ st ∈ l.all "Step",
    st.node.attr? "name" = some "Perform Script" ∧ r ∈ st.childrenNamed "Script"
  empty : r.node.children = []
  callee_name : r.node.attr? "name" = some callee
  callee_id : r.node.attr? "id" = b.node.attr? "id"
  definition : b ∈ root.all "Script"
  definition_name : b.node.attr? "name" = some callee
  definition_listed : ∃ n ∈ b.above, n.tag = "ScriptCatalog" ∨ n.tag = "Scripts"
  definition_steps : ∃ l ∈ b.all "StepList", ∃ st, st ∈ l.all "Step"
  distinct : caller ≠ callee
  named : caller ≠ "" ∧ callee ≠ ""

namespace Performs

variable {root a r b : Site} {caller callee : String}

/-- The defining element is one of the named definitions. -/
theorem definition_mem (h : Performs root a r b caller callee) :
    b ∈ namedDefinitions root ∧ definedName b = callee := by
  obtain ⟨l, hl, st, hst⟩ := h.definition_steps
  have hname : definedName b = callee := by
    rw [definedName, Node.attrD, h.definition_name, Option.getD_some]
  refine ⟨mem_namedDefinitions.mpr ⟨h.definition, isDefinition_of_steps hl hst, ?_⟩, hname⟩
  rw [hname]
  exact h.named.2

/-- The call is one of the script elements of the document, and its step performs a script. -/
theorem call_mem (h : Performs root a r b caller callee) :
    r ∈ root.all "Script" ∧ ∃ step, r.parent? = some step ∧ IsPerforming step := by
  obtain ⟨l, hl, st, hst, hname, hr⟩ := h.step
  obtain ⟨hchild, htag⟩ := Site.mem_childrenNamed.mp hr
  have hst' : st ∈ root.all "Step" :=
    Site.mem_all_trans (Site.mem_all_trans h.caller_element hl) hst
  refine ⟨Site.mem_all.mpr ⟨?_, htag⟩, st.node, ?_, (Site.mem_all.mp hst).2, .inr (.inr ?_)⟩
  · exact Site.below_trans (Site.mem_all.mp hst').1 (Site.mem_below_of_mem_children hchild)
  · rw [Site.parent?, Site.above_of_mem_children hchild, List.head?_cons]
  · rw [Node.attr, Node.attrD, hname]
    decide

/-- The call means `callee` exactly if its id, where it has one, leads to `callee`. -/
theorem means_iff (h : Performs root a r b caller callee) :
    (Index.of root).resolve? r.node = some callee ↔
      ∀ id, r.node.named? "id" = some id → IsLastOfId root id callee := by
  obtain ⟨hb, hname⟩ := h.definition_mem
  have hknown : (Index.of root).has callee = true := has_index_iff.mpr ⟨b, hb, hname⟩
  rw [Index.resolve?]
  cases hid : r.node.named? "id" with
  | none => simp [h.callee_name, hknown]
  | some id =>
    simp only [Option.bind_some, Option.some.injEq, forall_eq', ← byId_get?_eq_some_iff]
    cases hget : (Index.of root).byId.get? id with
    | some name => rfl
    | none =>
      -- the definition `b` has this very id, so the id leads somewhere
      exfalso
      have hbid : b.node.named? "id" = some id := by
        rw [← hid, Node.named?, Node.named?, h.callee_id]
      rw [byId_get?] at hget
      have hmem : (id, definedName b) ∈ ((namedDefinitions root).filterMap fun s =>
          (s.node.named? "id").map (·, definedName s)).reverse :=
        List.mem_reverse.mpr (List.mem_filterMap.mpr ⟨b, hb, by rw [hbid]; rfl⟩)
      have hsome := Register.isSome_lookup_iff.mpr ⟨_, hmem⟩
      rw [hget] at hsome
      cases hsome

end Performs

/-- **Which calls a report counts.** Where a report holds a call of `callee` by `caller`, the row of
`callee` lists `caller`, with at least one use and a standing other than unused, exactly if all
references of the report can be placed and some call of `callee` by `caller` is in sight. The call
itself is in sight exactly if none of the ten elements nearest to it is a list of scripts, and it is
a call of `callee` by `caller` exactly if its id leads to `callee` and `caller` is the innermost
known script around it. -/
theorem listsCaller_of_performs_iff (debug : Bool) {raw : String} {root a r b : Site}
    {caller callee : String} (hroot : openDocument "findall" raw = .ok root)
    (hcall : Performs root a r b caller callee) :
    (ListsCaller debug raw caller callee ↔
      AllPlaced root ∧ ∃ s, IsCallSite root s caller callee ∧ InSight s) ∧
    (InSight r ↔ ¬ NearList r) ∧
    (IsCallSite root r caller callee ↔
      (∀ id, r.node.named? "id" = some id → IsLastOfId root id callee) ∧
        IsInnermost root r caller) := by
  refine ⟨?_, inSight_iff_of_children hcall.empty, ?_⟩
  · rw [listsCaller_iff hroot]
    refine and_congr_right fun _ => exists_congr fun s => ?_
    rw [mem_references, callingScript?_eq_some_iff]
    constructor
    · rintro ⟨⟨hmem, hsight⟩, hmeans, hstep, hinner⟩
      exact ⟨⟨hmem, hstep, hinner, hmeans⟩, hsight⟩
    · rintro ⟨⟨hmem, hstep, hinner, hmeans⟩, hsight⟩
      exact ⟨⟨hmem, hsight⟩, hmeans, hstep, hinner⟩
  · rw [← hcall.means_iff]
    obtain ⟨hmem, hstep⟩ := hcall.call_mem
    constructor
    · intro h
      exact ⟨h.means, h.innermost⟩
    · rintro ⟨hmeans, hinner⟩
      exact ⟨hmem, hstep, hinner, hmeans⟩

/-! A script in seven folders calls another one. -/

/-- A report with a call that is kept away from the list of scripts by seven folders. -/
def folderedReport : String :=
  "<Scripts><g><g><g><g><g><g><g><Script id='1' name='A'><StepList><Step name='Perform Script'>" ++
  "<Script id='2' name='B'/></Step></StepList></Script></g></g></g></g></g></g></g>" ++
  "<Script id='2' name='B'><StepList><Step/></StepList></Script></Scripts>"

def folderedTree : Node :=
  let call := plain "Step" [("name", "Perform Script")]
    [plain "Script" [("id", "2"), ("name", "B")] []]
  let caller := plain "Script" [("id", "1"), ("name", "A")] [plain "StepList" [] [call]]
  let callee := plain "Script" [("id", "2"), ("name", "B")]
    [plain "StepList" [] [plain "Step" [] []]]
  let folders := (List.range 7).foldl (fun n _ => plain "g" [] [n]) caller
  plain "Scripts" [] [folders, callee]

/-- The script elements of `folderedReport`: the calling script, the call, the script called. -/
def folderedScripts : List Site := (Site.root folderedTree).all "Script"

set_option maxRecDepth 20000 in
theorem read_foldered : read folderedReport = .ok (some folderedTree) :=
  (read_eq_of_toList (toList_three _ _ _) (by decide) (by rfl) (by rfl)).trans (by rfl)

theorem foldered_performs :
    Performs (Site.root folderedTree) (folderedScripts.get ⟨0, by decide⟩)
      (folderedScripts.get ⟨1, by decide⟩) (folderedScripts.get ⟨2, by decide⟩) "A" "B" where
  caller_element := List.get_mem _ _
  caller_name := rfl
  caller_listed := ⟨_, List.get_mem _ ⟨7, by decide⟩, .inr rfl⟩
  step := ⟨_, List.get_mem _ ⟨0, by decide⟩, _, List.get_mem _ ⟨0, by decide⟩, rfl,
    List.get_mem _ ⟨0, by decide⟩⟩
  empty := rfl
  callee_name := rfl
  callee_id := rfl
  definition := List.get_mem _ _
  definition_name := rfl
  definition_listed := ⟨_, List.get_mem _ ⟨0, by decide⟩, .inr rfl⟩
  definition_steps := ⟨_, List.get_mem _ ⟨0, by decide⟩, _, List.get_mem _ ⟨0, by decide⟩⟩
  distinct := by decide
  named := by decide

theorem foldered_listsCaller :
    openDocument "findall" folderedReport = .ok (Site.root folderedTree) ∧
      ¬ NearList (folderedScripts.get ⟨1, by decide⟩) ∧
      ListsCaller false folderedReport "A" "B" := by
  have hroot := openDocument_of_read read_foldered "findall"
  have hiff := listsCaller_of_performs_iff false hroot foldered_performs
  have hcaller : callingScript? (Index.of (Site.root folderedTree))
      (folderedScripts.get ⟨1, by decide⟩) = some "A" := by decide
  have hsight : InSight (folderedScripts.get ⟨1, by decide⟩) :=
    isDefinition_eq_false_iff.mp (by decide)
  refine ⟨hroot, hiff.2.1.mp hsight, hiff.1.mpr ⟨fun s hs _ hstumbles => ?_, ?_⟩⟩
  · -- the call is the only reference, and it is placed in the calling script
    have hreferences : references (Site.root folderedTree) =
        [folderedScripts.get ⟨1, by decide⟩] := rfl
    rw [hreferences, List.mem_singleton] at hs
    rw [← hs, hstumbles.noCaller] at hcaller
    cases hcaller
  · obtain ⟨hstep, hinner⟩ := callingScript?_eq_some_iff.mp hcaller
    exact ⟨_, ⟨List.get_mem _ _, hstep, hinner, by decide⟩, hsight⟩

end DesignAudit.Script
