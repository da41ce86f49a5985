import DesignAudit.Proofs.Markup.Nearest
import DesignAudit.Proofs.Query.Coverage
import DesignAudit.Proofs.Query.Severity

/-!
# The context of a query

A row tells the script and the step that a calculation stands in. The names and numbers that it tells
are handed down from node to node, each node changing some of them and leaving the others
(`Context.enter`), so that below nested scripts and steps they come from different nodes. At every
node of a document they are those of the nearest nodes around it (`tells_at`): the name that of the
nearest script with a name, and the number that of the nearest step, counted in the script nearest to
the step.
-/

namespace DesignAudit.Query

open Markup Markup.Site Text Traversal

/-! ## What a node changes -/

section Enter

variable {c : Context} {s : Site}

theorem enter_of_script (h : s.tag = "Script") :
    c.enter s = { c with script := (s.node.attr? "name").or c.script, steps := s.all "Step" } := by
  simp [Context.enter, h]

theorem enter_of_step (h : s.tag = "Step") :
    c.enter s = { c with step := (s.node.attr? "name").or c.step, stepNumber := stepNumber? c s } := by
  simp [Context.enter, h]

/-- Only scripts change the script and its steps. -/
theorem enter_of_not_script (h : s.tag ≠ "Script") :
    (c.enter s).script = c.script ∧ (c.enter s).steps = c.steps := by
  simp only [Context.enter, beq_iff_eq, h]
  split
  · exact ⟨rfl, rfl⟩
  · split
    · contradiction
    · split <;> exact ⟨rfl, rfl⟩

/-- Only steps change the number of the step. -/
theorem enter_of_not_step (h : s.tag ≠ "Step") : (c.enter s).stepNumber = c.stepNumber := by
  simp only [Context.enter, beq_iff_eq, h]
  split
  · rfl
  · split <;> rfl

end Enter

/-! ## What a context tells -/

/-- A script that has a name, be it empty. -/
def IsNamedScript (t : Site) : Prop := t.tag = "Script" ∧ (t.node.attr? "name").isSome = true

instance (t : Site) : Decidable (IsNamedScript t) := inferInstanceAs (Decidable (_ ∧ _))

/-- The number of a step of a script: the one it gives, or else its position among the steps of the
script, counted from one. -/
def IsStepNumber (script step : Site) (k : Int) : Prop :=
  (step.node.attr? "index").bind Number.whole? = some k ∨
    (step.node.attr? "index").bind Number.whole? = none ∧
      ∃ i : Nat, (script.all "Step")[i]? = some step ∧ k = i + 1

theorem IsStepNumber.unique {script step : Site} {k l : Int} (hk : IsStepNumber script step k)
    (hl : IsStepNumber script step l) : k = l := by
  rcases hk with hk | ⟨hnone, i, hi, rfl⟩ <;> rcases hl with hl | ⟨hnone', j, hj, rfl⟩
  · exact Option.some.inj (hk.symm.trans hl)
  · rw [hnone'] at hk
    cases hk
  · rw [hnone] at hl
    cases hl
  · have hnodup : (script.all "Step").Nodup := (nodup_address_below script).of_map.filter _
    obtain ⟨hlt, -⟩ := List.getElem?_eq_some_iff.mp hi
    rw [(List.getElem?_inj hlt hnodup).mp (hi.trans hj.symm)]

/-- A context tells of the nearest nodes with a property, as far as there are any. -/
structure Tells (c : Context) (near : (Site → Prop) → Site → Prop) : Prop where
  script : ∀ name, c.script = some name ↔
    ∃ t, near IsNamedScript t ∧ t.node.attr? "name" = some name
  steps : ∀ g, near (fun t => t.tag = "Script") g → c.steps = g.all "Step"
  number : ∀ step g, near (fun t => t.tag = "Step") step →
    IsNearest (fun t => t.tag = "Script") step g →
      ∃ k, c.stepNumber = some k ∧ IsStepNumber g step k

/-- Before the root nothing is told. -/
theorem tells_start : Tells {} fun _ _ => False :=
  ⟨fun _ => by simp, fun _ h => h.elim, fun _ _ h => h.elim⟩

variable {schema : Schema} {root x : Site}

/-- A step is found among the steps of a script by its address. -/
theorem findIdx?_address {g x : Site} (hx : x ∈ g.all "Step") :
    ∃ i : Nat, (g.all "Step").findIdx? (·.address == x.address) = some i ∧
      (g.all "Step")[i]? = some x := by
  cases hfind : (g.all "Step").findIdx? (·.address == x.address) with
  | none =>
    rw [List.findIdx?_eq_none_iff] at hfind
    simpa using hfind x hx
  | some i =>
    obtain ⟨hi, haddress, -⟩ := List.findIdx?_eq_some_iff_getElem.mp hfind
    refine ⟨i, rfl, ?_⟩
    rw [List.getElem?_eq_getElem hi]
    have hmem : (g.all "Step")[i] ∈ g.below := (mem_all.mp (List.getElem_mem hi)).1
    exact congrArg some (List.inj_on_of_nodup_map (nodup_address_below g) hmem (mem_all.mp hx).1
      (beq_iff_eq.mp haddress))

/-- The number of a step is told where the steps of the script around it are known. -/
theorem isStepNumber_stepNumber? {c : Context} {g x : Site} (hx : x ∈ g.all "Step")
    (hsteps : c.steps = g.all "Step") : ∃ k, stepNumber? c x = some k ∧ IsStepNumber g x k := by
  rw [stepNumber?]
  cases hindex : (x.node.attr? "index").bind Number.whole? with
  | some n => exact ⟨n, rfl, .inl hindex⟩
  | none =>
    obtain ⟨i, hfind, hget⟩ := findIdx?_address hx
    refine ⟨i + 1, ?_, .inr ⟨hindex, i, hget, rfl⟩⟩
    simp only [hsteps, hfind]

/-- A node keeps what is told of those around it, and tells of itself. -/
theorem tells_enter {c : Context} {near : (Site → Prop) → Site → Prop}
    (hc : Tells c near) (hnear : ∀ p t, ¬ p x → (IsNearest p x t ↔ near p t)) :
    Tells (c.enter x) fun p => IsNearest p x := by
  by_cases hscript : x.tag = "Script"
  · have hstep : x.tag ≠ "Step" := by rw [hscript]; decide
    refine ⟨fun name => ?_, fun g hg => ?_, fun step g hnearest hg => ?_⟩
    · rw [enter_of_script hscript]
      cases hname : x.node.attr? "name" with
      | some own =>
        have hnamed : IsNamedScript x := ⟨hscript, by rw [hname]; rfl⟩
        simp only [isNearest_self_iff hnamed, exists_eq_left, hname, Option.some_or]
      | none =>
        have hnamed : ¬ IsNamedScript x := by
          rintro ⟨-, h⟩
          rw [hname] at h
          cases h
        rw [Option.none_or, hc.script]
        simp only [hnear _ _ hnamed]
    · rw [enter_of_script hscript, (isNearest_self_iff hscript).mp hg]
    · rw [enter_of_not_step hstep]
      exact hc.number step g ((hnear _ _ hstep).mp hnearest) hg
  · obtain ⟨hsame, hsteps⟩ := @enter_of_not_script c x hscript
    refine ⟨fun name => ?_, fun g hg => ?_, fun step g hnearest hg => ?_⟩
    · have hnamed : ¬ IsNamedScript x := fun h => hscript h.1
      rw [hsame, hc.script]
      simp only [hnear _ _ hnamed]
    · rw [hsteps]
      exact hc.steps g ((hnear _ _ hscript).mp hg)
    · by_cases hstep : x.tag = "Step"
      · obtain rfl := (isNearest_self_iff hstep).mp hnearest
        have hbelow : step ∈ g.below := hg.spans.resolve_left fun h => hscript (h ▸ hg.has)
        rw [enter_of_step hstep]
        exact isStepNumber_stepNumber? (mem_all.mpr ⟨hbelow, hstep⟩)
          (hc.steps g ((hnear _ _ hscript).mp hg))
      · rw [enter_of_not_step hstep]
        exact hc.number step g ((hnear _ _ hstep).mp hnearest) hg

theorem outward_of_mem_children {s c : Site} (h : c ∈ s.children) :
    c.outward = c :: s.outward := by
  obtain ⟨⟨n, i⟩, -, rfl⟩ := List.mem_map.mp h
  rfl

theorem at_root (hroot : root.above = []) :
    Context.at root = ({} : Context).enter root := by
  rw [Context.at, outward, hroot]
  rfl

/-- A child takes over the context of its parent and changes it. -/
theorem at_of_mem_children {s c : Site} (h : c ∈ s.children) :
    Context.at c = (Context.at s).enter c := by
  rw [Context.at, outward_of_mem_children h, List.reverse_cons, List.foldl_append]
  rfl

/-- At each node of a document the context tells of the nearest nodes around it. -/
theorem tells_at (hroot : root.above = []) (hx : Spans root x) :
    Tells (Context.at x) fun p => IsNearest p x := by
  refine descent_induction (motive := fun x => Tells (Context.at x) fun p => IsNearest p x) ?_ ?_ hx
  · rw [at_root hroot]
    refine tells_enter tells_start fun p t hnot => ?_
    rw [isNearest_root_iff hroot]
    simp [hnot]
  · intro s c hc htells
    rw [at_of_mem_children hc]
    exact tells_enter htells fun p t hnot => isNearest_child_iff hc hnot

/-! ## What a place tells -/

/-- The script of a context, unless its name is empty. -/
theorem filter_script_eq_some_iff {c : Context} {name : String} :
    c.script.filter (· ≠ "") = some name ↔ c.script = some name ∧ name ≠ "" := by
  rw [Option.filter_eq_some_iff, decide_eq_true_eq]

/-- A node in a script with a name is told by the script and the step, and no other node is. -/
theorem kindAt_cases {c : Context} {s : Site} {path : String} :
    (∃ name, c.script.filter (· ≠ "") = some name ∧
      kindAt c s path = .ok ⟨"Script", name, stepText c⟩) ∨
    c.script.filter (· ≠ "") = none ∧ ∀ kind, kindAt c s path = .ok kind →
      kind.category ∈ ["Field Calculation", "Custom Function", "Other"] := by
  cases hscript : c.script.filter (· ≠ "") with
  | some name =>
    refine .inl ⟨name, rfl, ?_⟩
    rw [kindAt, hscript]
    rfl
  | none =>
    refine .inr ⟨rfl, fun kind h => ?_⟩
    rw [kindAt, hscript] at h
    dsimp only at h
    split_ifs at h
    all_goals simp only [bind_eq_ok_iff, pure_eq_ok_iff] at h
    · obtain ⟨table, -, rfl⟩ := h
      simp
    · obtain ⟨table, -, rfl⟩ := h
      simp
    · obtain ⟨table, -, rfl⟩ := h
      simp
    · subst h
      simp
    · subst h
      simp

/-- A place is told by its kind, except that a field has a name of its own; where the kind could not be
told, the place is an error. -/
theorem placeOf_cases {s : Site} {path here : String} {field : Option Site}
    {told : Except Fault Kind} {p : Place} (h : placeOf s path here field told = .ok p) :
    p.category ∈ ["Error", "Field Calc"] ∧
      (∀ kind, told = .ok kind → kind.category = "Field Calculation") ∨
    ∃ kind, told = .ok kind ∧ p.category = kind.category ∧ p.details = kind.details ∧
      p.other = if kind.category == "Custom Function" then "" else kind.other := by
  cases told with
  | error fault =>
    rw [placeOf, pure_eq_ok_iff] at h
    subst h
    exact .inl ⟨by simp, fun kind hkind => by cases hkind⟩
  | ok kind =>
    rw [placeOf] at h
    dsimp only at h
    by_cases hfield : (kind.category == "Field Calculation") = true
    · rw [if_pos hfield] at h
      refine .inl ⟨?_, fun other hother => ?_⟩
      · split at h
        all_goals simp only [bind_eq_ok_iff, pure_eq_ok_iff] at h
        · obtain ⟨_, -, _, -, rfl⟩ := h
          simp
        · obtain ⟨_, -, rfl⟩ := h
          simp
      · rw [← Except.ok.inj hother]
        exact beq_iff_eq.mp hfield
    · rw [if_neg hfield, pure_eq_ok_iff] at h
      subst h
      exact .inr ⟨kind, rfl, rfl, rfl, rfl⟩

/-- The place of a calculation is a script exactly if a script with a name is in force there. -/
theorem placeAt_cases {s : Site} {p : Place} (h : placeAt s = .ok p) :
    (∃ name, (Context.at s).script.filter (· ≠ "") = some name ∧ p.category = "Script" ∧
      p.details = name ∧ p.other = stepText (Context.at s)) ∨
    (Context.at s).script.filter (· ≠ "") = none ∧ p.category ≠ "Script" := by
  obtain ⟨here, hplace⟩ : ∃ here, placeOf s (pathText s) here (nearestField? 10 s)
      (kindAt (Context.at s) s (pathText s)) = .ok p := by
    rw [placeAt] at h
    obtain ⟨here, -, h⟩ := bind_eq_ok_iff.mp h
    dsimp only at h
    split at h
    · obtain ⟨_, -, h⟩ := bind_eq_ok_iff.mp h
      exact ⟨here, h⟩
    · exact ⟨here, h⟩
  have hcases := placeOf_cases hplace
  rcases @kindAt_cases (Context.at s) s (pathText s) with ⟨name, hname, hkind⟩ | ⟨hnone, hkind⟩
  · rw [hkind] at hcases
    refine .inl ⟨name, hname, ?_⟩
    rcases hcases with ⟨-, hfield⟩ | ⟨kind, hsame, hcategory, hdetails, hother⟩
    · have hcategory : "Script" = "Field Calculation" := hfield _ rfl
      exact absurd hcategory (by decide)
    · obtain rfl := Except.ok.inj hsame
      exact ⟨hcategory, hdetails, hother⟩
  · refine .inr ⟨hnone, ?_⟩
    rcases hcases with ⟨hcategory, -⟩ | ⟨kind, hsame, hcategory, -, -⟩
    · intro h
      rw [h] at hcategory
      revert hcategory
      decide
    · intro h
      have hmem := hkind kind hsame
      rw [← hcategory, h] at hmem
      revert hmem
      decide

/-! ## What a row tells -/

/-- A calculation that is read in a script with a name has a row of this category. -/
theorem exists_script_row [SetOrder] {root x script : Site} {name sql : String}
    {rows : List Row} (hroot : root.above = []) (hx : Spans root x)
    (hnamed : IsNearest IsNamedScript x script) (hname : script.node.attr? "name" = some name)
    (hne : name ≠ "") (hopens : OpensWithCall sql) (hread : ReadAlone x sql)
    (hat : rowsAt schema x = .ok rows) :
    ∃ r ∈ rows, r.sql = sql ∧ r.place.category = "Script" := by
  obtain ⟨own, hown, -⟩ := bind_eq_ok_iff.mp hat
  obtain ⟨r, rfl, hsql⟩ := (readAlone_iff hopens hown).mpr hread
  refine ⟨r, (mem_rowsAt_iff hat).mpr (.inl hown), hsql, ?_⟩
  obtain ⟨_, place, -, -, hplace, rfl⟩ := textRow?_eq_some_iff.mp hown
  have hin : (Context.at x).script = some name :=
    ((tells_at hroot hx).script name).mpr ⟨script, hnamed, hname⟩
  rcases placeAt_cases hplace with ⟨_, -, hscript, -⟩ | ⟨hnone, -⟩
  · exact hscript
  · rw [filter_script_eq_some_iff.mpr ⟨hin, hne⟩] at hnone
    cases hnone

/-- A row tells of the nearest nodes around the node that it is found at: it is that of a script exactly
if the nearest script with a name has one that is not empty, whose name it then gives, and of a step
of a script it gives the number. -/
structure InContext (x : Site) (row : Sheet.Row) : Prop where
  script : ∀ name : String,
    row.lookup "Category" = some (.text "Script") ∧ row.lookup "Details" = some (.text name) ↔
      name ≠ "" ∧ ∃ t, IsNearest IsNamedScript x t ∧ t.node.attr? "name" = some name
  step : row.lookup "Category" = some (.text "Script") →
    ∀ step, IsNearest (fun t => t.tag = "Step") x step →
      (∃ g : Site, g.tag = "Script" ∧ step ∈ g.below) →
        ∃ g, IsNearest (fun t => t.tag = "Script") step g ∧ ∃ k, IsStepNumber g step k ∧
          ∃ other, row.lookup "Other Info" = some (.text other) ∧
            beginsWith s!"Step {k}:" other = true

theorem beginsWith_stepText {c : Context} {k : Int} (h : c.stepNumber = some k) :
    beginsWith s!"Step {k}:" (stepText c) = true := by
  have hspace : ": " = ":" ++ " " := by decide
  rw [stepText, h]
  show beginsWith ("Step " ++ toString k ++ ":") ("Step " ++ toString k ++ ": " ++ _) = true
  rw [hspace, ← String.append_assoc]
  exact beginsWith_append₂ (beginsWith_self _) _ _

theorem inContext_of_placeAt {r : Row} (hroot : root.above = [])
    (hx : Spans root x) (h : placeAt x = .ok r.place) : InContext x (r.cells schema) := by
  have htells := tells_at hroot hx
  have hcategory : (r.cells schema).lookup "Category" = some (.text r.place.category) := rfl
  have hdetails : (r.cells schema).lookup "Details" = some (.text r.place.details) := rfl
  have hother : (r.cells schema).lookup "Other Info" = some (.text r.place.other) := rfl
  rcases placeAt_cases h with ⟨name, hname, hscript, rfl, htext⟩ | ⟨hnone, hnot⟩
  · obtain ⟨hin, hne⟩ := filter_script_eq_some_iff.mp hname
    refine ⟨fun name => ?_, fun _ step hstep ⟨g, hg, hbelow⟩ => ?_⟩
    · rw [hcategory, hdetails, hscript, ← htells.script, hin]
      simp only [Option.some.injEq, Sheet.Cell.text.injEq, true_and]
      constructor
      · rintro rfl
        exact ⟨hne, rfl⟩
      · exact And.right
    · obtain ⟨g, hg⟩ := exists_isNearest (p := fun t => t.tag = "Script") (.inr hbelow) hg
      obtain ⟨k, hk, hnumber⟩ := htells.number step g hstep hg
      exact ⟨g, hg, k, hnumber, r.place.other, hother, htext ▸ beginsWith_stepText hk⟩
  · have hcell : (r.cells schema).lookup "Category" ≠ some (.text "Script") := by
      rw [hcategory]
      simpa using hnot
    refine ⟨fun name => ?_, fun hscript => absurd hscript hcell⟩
    rw [← htells.script]
    refine iff_of_false (fun h => hcell h.1) fun ⟨hne, hin⟩ => ?_
    have hsome := filter_script_eq_some_iff.mpr ⟨hin, hne⟩
    rw [hnone] at hsome
    cases hsome

/-- A row that is neither that of an object nor an error is in the context of its node. -/
theorem inContext_of_mem_rowsAt [SetOrder] {found : List Row} {r : Row}
    (hroot : root.above = []) (hx : Spans root x) (hfound : rowsAt schema x = .ok found)
    (hr : r ∈ found) (hcategory : r.place.category ∉ ["Layout Object", "Error"]) :
    InContext x (r.cells schema) := by
  rcases (mem_rowsAt_iff hfound).mp hr with hown | ⟨-, hobject⟩
  · obtain ⟨t, place, -, -, hplace, rfl⟩ := textRow?_eq_some_iff.mp hown
    exact inContext_of_placeAt hroot hx hplace
  · refine absurd ?_ hcategory
    rcases objectRow?_cases hobject with ⟨herror, -⟩ | ⟨hlayout, -⟩
    · simp [herror]
    · simp [hlayout]

/-! ## The report -/

/-- **Rows tell their context and come in order.** Where the search ends without a fault, the report
has the rows of all nodes of the document, put in order by status and first table and otherwise left in
document order. Each row of a node that is neither that of an object nor an error tells of the nearest
script with a name and of the nearest step around the node. -/
theorem rows_in_context [SetOrder] {raw : String} (hdone : (search raw).log = []) :
    ∃ (root : Site) (found : List (List Row)),
      openDocument "findall" (replace "??" "*" raw) = .ok root ∧
      List.Forall₂ (fun x rs => rowsAt (Schema.ofRoot root) x = .ok rs) (root :: root.below) found ∧
      Arranges (found.flatten.map (Row.cells (Schema.ofRoot root))) (search raw).rows ∧
      ∀ x ∈ root :: root.below, ∀ rs, rowsAt (Schema.ofRoot root) x = .ok rs → ∀ r ∈ rs,
        r.place.category ∉ ["Layout Object", "Error"] →
          InContext x (r.cells (Schema.ofRoot root)) := by
  obtain ⟨cells, hcells⟩ : ∃ cells, rowsOf raw = .ok cells := by
    cases h : rowsOf raw with
    | ok cells => exact ⟨cells, rfl⟩
    | error fault =>
      rw [search, h] at hdone
      cases hdone
  have hsearch : (search raw).rows = cells := by rw [search, hcells]
  obtain ⟨root, hopen, hcells⟩ := bind_eq_ok_iff.mp hcells
  obtain ⟨rows, hrows, hcells⟩ := bind_eq_ok_iff.mp hcells
  have hshown : ∀ row ∈ rows.map (Row.cells (Schema.ofRoot root)),
      (∃ s, ShowsStatus row s) ∧ ∃ t, ShowsFirst row t := by
    rw [List.forall_mem_map]
    intro r hr
    exact ⟨⟨_, showsStatus_cells _ r⟩,
      showsFirst_cells (reading_or_none_of_mem_rowsInOrder hrows r hr)⟩
  obtain ⟨found, hfound, hflat⟩ := bind_eq_ok_iff.mp hrows
  rw [pure_eq_ok_iff] at hcells hflat
  have hroot : root.above = [] := above_of_openDocument hopen
  refine ⟨root, found, hopen, mapM_eq_ok_iff.mp hfound, ?_,
    fun x hx rs hrs r hr hcategory => ?_⟩
  · rw [hsearch, ← hcells, hflat]
    exact arranges_arranged hshown
  · exact inContext_of_mem_rowsAt hroot (List.mem_cons.mp hx) hrs hr hcategory

/-- A report with a query in a script without a name, which stands in the second step of the script
`S`; the first step has a number of its own. Nothing is wrong with this query. Of the three that follow
one reads from an occurrence, one names a field and one a table that is missing. -/
def nestedReport : String :=
  "<F><BaseTable name='T'><Field name='a'/></BaseTable><Table name='O' baseTable='T'/>" ++
  "<Script name='S'><Step index='7'/><Step><Script id='2'><Calculation>" ++
  "ExecuteSQL ( \"SELECT a FROM T\" )</Calculation></Script></Step></Script>" ++
  "<Calculation>ExecuteSQL ( \"SELECT a FROM O\" )</Calculation>" ++
  "<Calculation>ExecuteSQL ( \"SELECT b FROM T\" )</Calculation>" ++
  "<Calculation>ExecuteSQL ( \"SELECT a FROM U\" )</Calculation></F>"

def nestedTree : Node :=
  plain "F" []
    [plain "BaseTable" [("name", "T")] [plain "Field" [("name", "a")] []],
     plain "Table" [("name", "O"), ("baseTable", "T")] [],
     plain "Script" [("name", "S")]
      [plain "Step" [("index", "7")] [],
       plain "Step" [] [plain "Script" [("id", "2")] [calculationOf (callFor "a")]]],
     calculationOf "ExecuteSQL ( \"SELECT a FROM O\" )",
     calculationOf (callFor "b"),
     calculationOf "ExecuteSQL ( \"SELECT a FROM U\" )"]

set_option maxRecDepth 20000 in
theorem read_nested :
    read nestedReport = .ok (some nestedTree) ∧ replace "??" "*" nestedReport = nestedReport := by
  have hletters : nestedReport.toList = _ := toList_append_of (toList_append_of (toList_append_of
    (toList_three _ _ _) String.toList_ofList) String.toList_ofList) String.toList_ofList
  exact ⟨(read_eq_of_toList hletters (by decide) (by rfl) (by rfl)).trans (by rfl),
    replace_eq_self hletters (by decide +kernel)⟩

theorem open_nested :
    openDocument "findall" (replace "??" "*" nestedReport) = .ok (Site.root nestedTree) := by
  rw [read_nested.2]
  exact openDocument_of_read read_nested.1 "findall"

theorem nested_done : (search nestedReport).log = [] := by
  obtain ⟨cells, hcells⟩ : ∃ cells, rowsOf nestedReport = .ok cells :=
    ⟨_, bind_eq_ok_iff.mpr ⟨_, open_nested, rfl⟩⟩
  rw [search, hcells]

/-- The statuses of the rows of a document, in document order. -/
def statusesInOrder (schema : Schema) (root : Site) : Option (List String) :=
  match rowsInOrder schema root with
  | .ok rows => some (rows.map Row.status)
  | .error _ => none

theorem statuses_of_forall₂ {found : List (List Row)} {statuses : List String}
    (hfound : List.Forall₂ (fun x rs => rowsAt schema x = .ok rs) (root :: root.below) found)
    (h : statusesInOrder schema root = some statuses) :
    found.flatten.map Row.status = statuses := by
  have hrows : rowsInOrder schema root = .ok found.flatten :=
    bind_eq_ok_iff.mpr ⟨found, mapM_eq_ok_iff.mpr hfound, rfl⟩
  rw [statusesInOrder, hrows] at h
  exact Option.some.inj h

theorem statuses_nested :
    statusesInOrder (Schema.ofRoot (Site.root nestedTree)) (Site.root nestedTree) =
      some ["", "Not Base Table", "Missing Field", "Missing Table"] := by
  decide +kernel

/-- The first query is told with the script `S`, since the script around it has no name, and with the
second step, since that one has no number. The four rows come in the reverse of document order, the
gravest one first. -/
theorem nested_row_in_context :
    (search nestedReport).log = [] ∧
    (search nestedReport).rows.map (textAt "Error Status") =
      ["Missing Table", "Missing Field", "Not Base Table", ""] ∧
    ∃ row ∈ (search nestedReport).rows,
      row.lookup "Details" = some (.text "S") ∧
      ∃ other, row.lookup "Other Info" = some (.text other) ∧ beginsWith "Step 2:" other = true := by
  obtain ⟨root, found, hopen, hfound, harranges, hcontext⟩ := rows_in_context nested_done
  obtain rfl := Except.ok.inj (open_nested.symm.trans hopen)
  let script := (Site.root nestedTree).children.get ⟨2, by decide⟩
  let step := script.children.get ⟨1, by decide⟩
  let inner := step.children.get ⟨0, by decide⟩
  let x := inner.children.get ⟨0, by decide⟩
  have hstep : step ∈ script.children := List.get_mem _ _
  have hinner : inner ∈ step.children := List.get_mem _ _
  have hx : x ∈ inner.children := List.get_mem _ _
  have hnamed : IsNearest IsNamedScript x script := by
    rw [isNearest_child_iff hx (by decide), isNearest_child_iff hinner (by decide),
      isNearest_child_iff hstep (by decide)]
    exact isNearest_self (by decide)
  have hnearest : IsNearest (fun t => t.tag = "Step") x step := by
    rw [isNearest_child_iff hx (by decide), isNearest_child_iff hinner (by decide)]
    exact isNearest_self (by decide)
  have hmem : x ∈ (Site.root nestedTree).below :=
    below_trans (below_trans (below_trans (mem_below_of_mem_children (List.get_mem _ _))
      (mem_below_of_mem_children hstep)) (mem_below_of_mem_children hinner))
      (mem_below_of_mem_children hx)
  -- the node is read, and so it has a row
  obtain ⟨rs, hrs, hat⟩ := exists_mem_of_forall₂ hfound (List.mem_cons_of_mem _ hmem)
  obtain ⟨r, hr, -, hcategory⟩ := exists_script_row rfl (.inr hmem) hnamed
    (show script.node.attr? "name" = some "S" by decide) (by decide)
    (formatted_opens "a" (by decide)) (by decide +kernel) hat
  have hin := hcontext x (List.mem_cons_of_mem _ hmem) rs hat r hr (by rw [hcategory]; decide)
  refine ⟨nested_done, harranges.statuses_eq ?_ (by decide) (by decide),
    r.cells (Schema.ofRoot (Site.root nestedTree)), ?_, ?_, ?_⟩
  · rw [List.map_map]
    show (found.flatten.map Row.status).Perm _
    rw [statuses_of_forall₂ hfound statuses_nested]
    decide
  · exact harranges.perm.mem_iff.mpr (List.mem_map_of_mem (List.mem_flatten.mpr ⟨rs, hrs, hr⟩))
  · exact ((hin.script "S").mpr ⟨by decide, script, hnamed, by decide⟩).2
  · obtain ⟨g, hg, k, hnumber, other, hother, hbegins⟩ :=
      hin.step (congrArg (fun c => some (Sheet.Cell.text c)) hcategory) step hnearest
        ⟨script, by decide, mem_below_of_mem_children hstep⟩
    have hscript : IsNearest (fun t => t.tag = "Script") step script := by
      rw [isNearest_child_iff hstep (by decide)]
      exact isNearest_self (by decide)
    obtain rfl := hg.unique hscript
    have hsecond : IsStepNumber script step 2 := .inr ⟨by decide, 1, rfl, rfl⟩
    obtain rfl := hnumber.unique hsecond
    exact ⟨other, hother, hbegins⟩

end DesignAudit.Query
