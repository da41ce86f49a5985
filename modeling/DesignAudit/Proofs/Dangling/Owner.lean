import DesignAudit.Proofs.Dangling.Errors
import DesignAudit.Proofs.Dangling.Standing
import DesignAudit.Proofs.Layout.Place

/-!
# The folder of the owner of a dangling reference

`Found` lists what the audit finds and where. The audit gathers a row for each of these findings, and
ends with a fault if there is one whose row cannot be made (`gathers_allRows`). So it completes
exactly if each location at which something is found can be read, and the standing of a row is that
of the script or layout that its location tells (`audit_standing`), which need not be the owner.
-/

namespace DesignAudit.Dangling

open Markup Text Traversal
open Layout (positionText NoInfiniteBounds exists_positionText_eq_ok)

/-! ## What is found -/

def At (spot : Spot) (problems : List Problem) (s : Spot) (p : Problem) : Prop :=
  s = spot ∧ p ∈ problems

/-- What is found at the members of a list. -/
def Among {α : Type} (xs : List α) (found : α → Spot → Problem → Prop) (s : Spot) (p : Problem) :
    Prop :=
  ∃ x ∈ xs, found x s p

/-- What is found at an object whose place is told. -/
def WithPlace (object : Site) (found : String → Spot → Problem → Prop) (s : Spot) (p : Problem) :
    Prop :=
  ∃ position, positionText object = .ok position ∧ found position s p

section Findings

variable (k : Known)

def FoundInScript (script : Site) : Spot → Problem → Prop :=
  Among (script.all "Step") fun step =>
    At (stepSpot (script.node.attrD "name" "Unknown Script") step)
      (k.stepProblems (step.node.attr "name") step)

def FoundInField (layout : String) (object : Site) : Spot → Problem → Prop :=
  WithPlace object fun position =>
    At (layoutSpot .layoutField layout ("Field Object " ++ position))
      ((object.first? "Field").toList.flatMap
        (k.fieldProblem "Table not found" "Field not found in table"))

/-- What is found in a button, the script of a single step being asked for once more. -/
def FoundInButton (layout : String) (object : Site) : Spot → Problem → Prop :=
  WithPlace object fun position =>
    At (layoutSpot .layoutObject layout (buttonPlace object position))
      ((object.all "Script").flatMap (k.scriptProblem "Script referenced by button not found") ++
        (((object.first? "SingleStep").bind (·.firstWith? "Step" "name" "Perform Script")).bind
          (·.first? "Script")).toList.flatMap
          (k.scriptProblem "Script referenced by button not found"))

def FoundInPortal (layout : String) (object : Site) : Spot → Problem → Prop :=
  WithPlace object fun position =>
    At (layoutSpot .layoutObject layout ("Portal " ++ position))
      ((object.first? "Portal").toList.flatMap k.portalProblem)

def FoundOnLayout (layout : Site) (s : Spot) (p : Problem) : Prop :=
  Among (layout.allWith "Object" "type" "Field")
      (FoundInField k (layout.node.attrD "name" "Unknown Layout")) s p ∨
    Among (layout.allWith "Object" "type" "Button")
      (FoundInButton k (layout.node.attrD "name" "Unknown Layout")) s p ∨
    Among (layout.allWith "Object" "type" "Portal")
      (FoundInPortal k (layout.node.attrD "name" "Unknown Layout")) s p

def FoundInCalculation (table : String) (field : Site) : Spot → Problem → Prop :=
  Among (field.first? "Calculation").toList fun c =>
    At (fieldSpot table (field.node.attrD "name" "Unknown Field") (shownBy c))
      (k.calculationProblems c)

def FoundInTable (table : Site) : Spot → Problem → Prop :=
  Among (table.all "Field") (FoundInCalculation k (table.node.attrD "name" "Unknown Table"))

def FoundInFunction (f : Site) : Spot → Problem → Prop :=
  Among (f.first? "Calculation").toList fun c =>
    At (plainSpot .function ("Custom Function: " ++ f.node.attrD "name" "Unknown Function")
        (shownBy c))
      (k.callProblems c)

def FoundInValueList (v : Site) : Spot → Problem → Prop :=
  At (plainSpot .valueList ("Value List: " ++ v.node.attrD "name" "Unknown Value List") .none)
    ((v.first? "Field").toList.flatMap (k.fieldProblem "Table referenced in value list not found"
      "Field referenced in value list not found"))

def FoundInRelationship (r : Site) : Spot → Problem → Prop :=
  Among (r.all "FieldPair") fun pair => Among (pair.all "Field").zipIdx fun field =>
    At (plainSpot .relationship
        (pairPlace (r.node.attrD "name" "Unknown Relationship") field.2) .none)
      (k.fieldProblem "Table referenced in relationship not found"
        "Field referenced in relationship not found" field.1)

/-- What the audit of a report finds, and where. -/
def Found (root : Site) (s : Spot) (p : Problem) : Prop :=
  Among (root.all "Script") (FoundInScript k) s p ∨
    Among (root.all "Layout") (FoundOnLayout k) s p ∨
    Among (root.all "BaseTable") (FoundInTable k) s p ∨
    Among (root.all "CustomFunction") (FoundInFunction k) s p ∨
    Among (root.all "ValueList") (FoundInValueList k) s p ∨
    Among (root.all "Relationship") (FoundInRelationship k) s p

end Findings

/-! ## What is gathered -/

variable {k : Known} {before : List Row} {found : Spot → Problem → Prop}

/-- A computation gathers the rows of some findings after other rows: it succeeds exactly if each
finding has a row, and gives these rows then. -/
structure Gathers (k : Known) (before : List Row) (x : Except Fault (List Row))
    (found : Spot → Problem → Prop) : Prop where
  ok_iff : (∃ rows, x = .ok rows) ↔ ∀ s p, found s p → ∃ r, k.row s p = .ok r
  mem_iff : ∀ {rows}, x = .ok rows →
    ∀ {r}, r ∈ rows ↔ r ∈ before ∨ ∃ s p, found s p ∧ k.row s p = .ok r

theorem Gathers.congr {x : Except Fault (List Row)} {found' : Spot → Problem → Prop}
    (h : Gathers k before x found) (hsame : ∀ s p, found s p ↔ found' s p) :
    Gathers k before x found' := by
  obtain rfl : found = found' := funext fun s => funext fun p => propext (hsame s p)
  exact h

theorem gathers_rows (s : Spot) (ps : List Problem) : Gathers k [] (k.rows s ps) (At s ps) where
  ok_iff := by
    rw [Known.rows, exists_mapM_eq_ok_iff]
    exact ⟨fun h s' p hp => hp.1 ▸ h p hp.2, fun h p hp => h s p ⟨rfl, hp⟩⟩
  mem_iff := by
    intro rows h r
    rw [mem_of_mapM_eq_ok h]
    constructor
    · rintro ⟨p, hp, hr⟩
      exact .inr ⟨s, p, ⟨rfl, hp⟩, hr⟩
    · rintro (hr | ⟨s', p, ⟨rfl, hp⟩, hr⟩)
      · cases hr
      · exact ⟨p, hp, hr⟩

variable {rows : List Row} {n : Node} {p : Problem} {r : Row} {s : Spot} {α : Type}

theorem gathers_pure (h : ∀ r, r ∈ rows ↔ r ∈ before) :
    Gathers k before (pure rows) fun _ _ => False where
  ok_iff := ⟨fun _ _ _ hfound => hfound.elim, fun _ => ⟨rows, rfl⟩⟩
  mem_iff := by
    intro rows' hrows r
    obtain rfl := pure_eq_ok_iff.mp hrows
    simp [h]

theorem gathers_none {foundAt : α → Spot → Problem → Prop} :
    Gathers k [] (.ok []) (Among (none : Option α).toList foundAt) :=
  (gathers_pure fun _ => Iff.rfl).congr fun _ _ => by simp [Among]

theorem gathers_some {a : α} {foundAt : α → Spot → Problem → Prop}
    {x : Except Fault (List Row)} (h : Gathers k before x (foundAt a)) :
    Gathers k before x (Among (some a).toList foundAt) :=
  h.congr fun _ _ => by simp [Among]

/-- A traversal gathers what its steps gather, before what is gathered after it. -/
theorem Gathers.traverse {xs : List α} {f : α → Except Fault (List Row)}
    {foundAt : α → Spot → Problem → Prop} {next : List (List Row) → Except Fault (List Row)}
    (hf : ∀ x ∈ xs, Gathers k [] (f x) (foundAt x))
    (hnext : ∀ yss, Gathers k (before ++ yss.flatten) (next yss) found) :
    Gathers k before (xs.mapM f >>= next) fun s p => Among xs foundAt s p ∨ found s p where
  ok_iff := by
    have hsteps : (∃ yss, xs.mapM f = .ok yss) ↔
        ∀ s p, Among xs foundAt s p → ∃ r, k.row s p = .ok r := by
      rw [exists_mapM_eq_ok_iff]
      constructor
      · rintro h s p ⟨x, hx, hp⟩
        exact (hf x hx).ok_iff.mp (h x hx) s p hp
      · exact fun h x hx => (hf x hx).ok_iff.mpr fun s p hp => h s p ⟨x, hx, hp⟩
    -- whether the rest succeeds does not depend on the rows that the traversal gives
    have hrest : ∀ yss, (∃ rows, next yss = .ok rows) ↔
        ∀ s p, found s p → ∃ r, k.row s p = .ok r := fun yss => (hnext yss).ok_iff
    simp only [or_imp, forall_and, ← hsteps]
    constructor
    · rintro ⟨rows, h⟩
      obtain ⟨yss, hyss, h⟩ := bind_eq_ok_iff.mp h
      exact ⟨⟨yss, hyss⟩, (hrest yss).mp ⟨rows, h⟩⟩
    · rintro ⟨⟨yss, hyss⟩, h⟩
      obtain ⟨rows, hrows⟩ := (hrest yss).mpr h
      exact ⟨rows, bind_eq_ok_iff.mpr ⟨yss, hyss, hrows⟩⟩
  mem_iff := by
    intro rows h r
    obtain ⟨yss, hyss, h⟩ := bind_eq_ok_iff.mp h
    have hsteps : r ∈ yss.flatten ↔ ∃ s p, Among xs foundAt s p ∧ k.row s p = .ok r := by
      rw [List.mem_flatten]
      constructor
      · rintro ⟨ys, hys, hr⟩
        obtain ⟨x, hx, hfx⟩ := (mem_of_mapM_eq_ok hyss).mp hys
        obtain hr | ⟨s, p, hp, hrow⟩ := ((hf x hx).mem_iff hfx).mp hr
        · cases hr
        · exact ⟨s, p, ⟨x, hx, hp⟩, hrow⟩
      · rintro ⟨s, p, ⟨x, hx, hp⟩, hrow⟩
        obtain ⟨ys, hfx⟩ := exists_mapM_eq_ok_iff.mp ⟨yss, hyss⟩ x hx
        exact ⟨ys, (mem_of_mapM_eq_ok hyss).mpr ⟨x, hx, hfx⟩,
          ((hf x hx).mem_iff hfx).mpr (.inr ⟨s, p, hp, hrow⟩)⟩
    rw [(hnext yss).mem_iff h, List.mem_append, hsteps, or_assoc]
    simp only [or_and_right, exists_or]

/-- A traversal whose results are put together gathers what its steps gather. -/
theorem Gathers.collect {xs : List α} {f : α → Except Fault (List Row)}
    {foundAt : α → Spot → Problem → Prop} (hf : ∀ x ∈ xs, Gathers k [] (f x) (foundAt x)) :
    Gathers k [] (do return (← xs.mapM f).flatten) (Among xs foundAt) :=
  (Gathers.traverse hf fun _ => gathers_pure fun _ => Iff.rfl).congr fun _ _ => or_iff_left id

/-- Telling the place of an object adds nothing to what is gathered. -/
theorem Gathers.placed {object : Site} {f : String → Except Fault (List Row)}
    {foundAt : String → Spot → Problem → Prop} (hplace : ∃ t, positionText object = .ok t)
    (hf : ∀ t, Gathers k [] (f t) (foundAt t)) :
    Gathers k [] (positionText object >>= f) (WithPlace object foundAt) := by
  obtain ⟨t, ht⟩ := hplace
  rw [ht, ok_bind]
  exact (hf t).congr fun s p => by simp [WithPlace, ht]

/-! ## The rows of each place -/

theorem gathers_scriptRows (script : Site) :
    Gathers k [] (k.scriptRows script) (FoundInScript k script) :=
  Gathers.collect fun _ _ => gathers_rows _ _

section Layout

variable {root object : Site} {layout : String}

theorem gathers_fieldRows (hbounds : NoInfiniteBounds root) (hobject : object ∈ root.below) :
    Gathers k [] (k.fieldRows layout object) (FoundInField k layout object) :=
  Gathers.placed (exists_positionText_eq_ok hbounds hobject) fun _ => gathers_rows _ _

theorem gathers_buttonRows (hbounds : NoInfiniteBounds root) (hobject : object ∈ root.below) :
    Gathers k [] (k.buttonRows layout object) (FoundInButton k layout object) :=
  Gathers.placed (exists_positionText_eq_ok hbounds hobject) fun _ => gathers_rows _ _

theorem gathers_portalRows (hbounds : NoInfiniteBounds root) (hobject : object ∈ root.below) :
    Gathers k [] (k.portalRows layout object) (FoundInPortal k layout object) :=
  Gathers.placed (exists_positionText_eq_ok hbounds hobject) fun _ => gathers_rows _ _

end Layout

theorem gathers_layoutRows {root layout : Site} (hbounds : NoInfiniteBounds root)
    (hlayout : layout ∈ root.below) :
    Gathers k [] (k.layoutRows layout) (FoundOnLayout k layout) := by
  -- the bounds of every object of the layout are among those of the report
  have hbelow : ∀ {type : String}, ∀ object ∈ layout.allWith "Object" "type" type,
      object ∈ root.below :=
    fun object hobject => Site.below_trans hlayout (Site.mem_below_of_mem_allWith hobject)
  refine Gathers.congr
    (.traverse (fun o ho => gathers_fieldRows hbounds (hbelow o ho)) fun fields =>
      .traverse (fun o ho => gathers_buttonRows hbounds (hbelow o ho)) fun buttons =>
      .traverse (fun o ho => gathers_portalRows hbounds (hbelow o ho)) fun portals =>
      gathers_pure fun r => ?_) fun s p => ?_
  · rw [List.nil_append]
  · simp only [FoundOnLayout, or_false]

theorem gathers_fieldCalculationRows (table : String) (field : Site) :
    Gathers k [] (k.fieldCalculationRows table field) (FoundInCalculation k table field) := by
  rw [Known.fieldCalculationRows, FoundInCalculation]
  cases field.first? "Calculation" with
  | none => exact gathers_none
  | some c => exact gathers_some (gathers_rows _ _)

theorem gathers_tableRows (table : Site) :
    Gathers k [] (k.tableRows table) (FoundInTable k table) :=
  .collect fun _ _ => gathers_fieldCalculationRows _ _

theorem gathers_functionRows (f : Site) :
    Gathers k [] (k.functionRows f) (FoundInFunction k f) := by
  rw [Known.functionRows, FoundInFunction]
  cases f.first? "Calculation" with
  | none => exact gathers_none
  | some c => exact gathers_some (gathers_rows _ _)

theorem gathers_valueListRows (v : Site) :
    Gathers k [] (k.valueListRows v) (FoundInValueList k v) :=
  gathers_rows _ _

theorem gathers_relationshipRows (r : Site) :
    Gathers k [] (k.relationshipRows r) (FoundInRelationship k r) :=
  .collect fun _ _ => .collect fun _ _ => gathers_rows _ _

/-- The audit of a report without infinite distances gathers the rows of what is found. -/
theorem gathers_allRows {root : Site} (hbounds : NoInfiniteBounds root) :
    Gathers k [] (k.allRows root) (Found k root) := by
  refine Gathers.congr
    (.traverse (fun script _ => gathers_scriptRows script) fun scripts =>
      .traverse (fun layout hl => gathers_layoutRows hbounds (Site.mem_all.mp hl).1) fun layouts =>
      .traverse (fun table _ => gathers_tableRows table) fun tables =>
      .traverse (fun f _ => gathers_functionRows f) fun functions =>
      .traverse (fun v _ => gathers_valueListRows v) fun valueLists =>
      .traverse (fun r _ => gathers_relationshipRows r) fun relationships =>
      gathers_pure fun r => ?_) fun s p => ?_
  · simp only [List.flatten_append, List.nil_append]
  · simp only [Found, or_false]

/-! ## The standing of a row -/

theorem exists_row_iff :
    (∃ r, k.row s p = .ok r) ↔ Legible k.folders s.full := by
  rw [← exists_statusOf_iff p.error s.evidence]
  constructor
  · rintro ⟨r, h⟩
    obtain ⟨status, hstatus, -⟩ := bind_eq_ok_iff.mp h
    exact ⟨status, hstatus⟩
  · rintro ⟨status, hstatus⟩
    exact ⟨_, bind_eq_ok_iff.mpr ⟨status, hstatus, rfl⟩⟩

/-- A row shows the spot it is about, and is to be deleted exactly if the full location tells of
deletion. -/
theorem row_spec (h : k.row s p = .ok r) :
    r.kind = s.kind ∧ r.context = s.context ∧ r.location = s.location ∧
      (r.status = .toDelete ↔ TellsDeletion k.folders s.full) := by
  obtain ⟨status, hstatus, h⟩ := bind_eq_ok_iff.mp h
  obtain rfl := pure_eq_ok_iff.mp h
  exact ⟨rfl, rfl, rfl, statusOf_eq_toDelete_iff hstatus⟩

/-- The full location of a spot in a script or on a layout is made of the name of the owner. -/
def Spot.TellsOwner (s : Spot) : Prop :=
  (s.kind = .script → s.full = s!"Script: {s.context}, {s.location}") ∧
    (s.kind = .layoutField ∨ s.kind = .layoutObject → s.full = "Layout: " ++ s.context)

theorem Found.tellsOwner {root : Site} (h : Found k root s p) :
    s.TellsOwner := by
  rcases h with ⟨script, -, step, -, rfl, -⟩ |
    ⟨layout, -, ⟨o, -, t, -, rfl, -⟩ | ⟨o, -, t, -, rfl, -⟩ | ⟨o, -, t, -, rfl, -⟩⟩ |
    ⟨table, -, field, -, c, -, rfl, -⟩ | ⟨f, -, c, -, rfl, -⟩ | ⟨v, -, rfl, -⟩ |
    ⟨r, -, pair, -, field, -, rfl, -⟩
  all_goals simp [Spot.TellsOwner, stepSpot, layoutSpot, fieldSpot, plainSpot]

def Row.inScript (r : Row) : String := s!"Script: {r.context}, {r.location}"

/-- The location of a row of a layout, as it is read. -/
def Row.onLayout (r : Row) : String := "Layout: " ++ r.context

theorem status_of_script (hs : s.TellsOwner) (h : k.row s p = .ok r) (hkind : r.kind = .script) :
    r.status = .toDelete ↔
      speaksOfDeletion (lower r.inScript) = true ∨
        inDeletedFolder k.folders.scripts (toldScript r.context) = true ∨
        TellsDeletedLayout k.folders r.inScript := by
  obtain ⟨hk, hcontext, hlocation, hstatus⟩ := row_spec h
  have hfull : s.full = r.inScript := by
    rw [hs.1 (hk ▸ hkind), ← hcontext, ← hlocation, Row.inScript]
  rw [hstatus, hfull, TellsDeletion, Row.inScript, tellsDeletedScript_location]

theorem status_of_layout (hs : s.TellsOwner)
    (h : k.row s p = .ok r) (hkind : r.kind = .layoutField ∨ r.kind = .layoutObject) :
    r.status = .toDelete ↔
      speaksOfDeletion (lower r.onLayout) = true ∨
        inDeletedFolder k.folders.layouts (toldLayout r.context) = true ∨
        TellsDeletedScript k.folders r.onLayout := by
  obtain ⟨hk, hcontext, -, hstatus⟩ := row_spec h
  have hfull : s.full = r.onLayout := by rw [hs.2 (hk ▸ hkind), ← hcontext, Row.onLayout]
  rw [hstatus, hfull, TellsDeletion, Row.onLayout, tellsDeletedLayout_location]
  exact or_congr_right or_comm

/-! ## The report -/

theorem audit_of_allRows {catalogue : Catalog.Full}
    (h : Known.allRows ⟨catalogue⟩ (Site.root n) = .ok rows) :
    audit (some ⟨catalogue, some n⟩) = { rows := (arranged rows).map Row.cells } := by
  simp only [audit, h]

theorem audit_log_eq_nil_iff {catalogue : Catalog.Full} :
    (audit (some ⟨catalogue, some n⟩)).log = [] ↔
      ∃ rows, Known.allRows ⟨catalogue⟩ (Site.root n) = .ok rows := by
  cases hrows : Known.allRows ⟨catalogue⟩ (Site.root n) with
  | ok rows => simp [audit_of_allRows hrows]
  | error fault => simp [audit, hrows]

/-- What a report gives to know. -/
def known (n : Node) : Known := ⟨Catalog.build (Site.root n)⟩

/-- The audit of a report with its own catalogue. -/
def ownAudit (n : Node) : Sheet.Findings := audit (some ⟨Catalog.build (Site.root n), some n⟩)

theorem ownAudit_of_ok (h : (known n).allRows (Site.root n) = .ok rows) :
    ownAudit n = { rows := (arranged rows).map Row.cells } :=
  audit_of_allRows h

theorem ownAudit_log_eq_nil_iff :
    (ownAudit n).log = [] ↔ ∃ rows, (known n).allRows (Site.root n) = .ok rows :=
  audit_log_eq_nil_iff

/-- **The standing of a dangling reference follows the name that its location tells.** The audit of a
report without infinite distances completes exactly if every location at which something is found
can be read. It has a row for each finding then, and a row for a step is to be deleted exactly if the
location speaks of deletion, or the folder does of the script or the layout that the location tells;
and likewise a row on a layout. The script or layout that is told is the owner exactly if the name of
the owner has none of the marks that end a name. -/
theorem audit_standing (n : Node) (hbounds : NoInfiniteBounds (Site.root n)) :
    ((ownAudit n).log = [] ↔
      ∀ s p, Found (known n) (Site.root n) s p → Legible (known n).folders s.full) ∧
    ((ownAudit n).log = [] → ∃ rows : List Row,
      (ownAudit n).rows = (arranged rows).map Row.cells ∧
      (∀ r, r ∈ rows ↔ ∃ s p, Found (known n) (Site.root n) s p ∧ (known n).row s p = .ok r) ∧
      (∀ r ∈ rows, r.kind = .script →
        (r.status = .toDelete ↔
          speaksOfDeletion (lower r.inScript) = true ∨
            inDeletedFolder (known n).folders.scripts (toldScript r.context) = true ∨
            TellsDeletedLayout (known n).folders r.inScript)) ∧
      (∀ r ∈ rows, r.kind = .layoutField ∨ r.kind = .layoutObject →
        (r.status = .toDelete ↔
          speaksOfDeletion (lower r.onLayout) = true ∨
            inDeletedFolder (known n).folders.layouts (toldLayout r.context) = true ∨
            TellsDeletedScript (known n).folders r.onLayout))) ∧
    (∀ script, toldScript script = script ↔
      has "," script = false ∧ has "Script: " script = false) ∧
    (∀ layout, toldLayout layout = layout ↔
      has " Top:" layout = false ∧ has "," layout = false ∧ has "Layout: " layout = false ∧
        trim layout = layout) := by
  have hgathers := gathers_allRows (k := known n) hbounds
  refine ⟨?_, fun hlog => ?_, fun _ => toldScript_eq_self_iff, fun _ => toldLayout_eq_self_iff⟩
  · simp only [ownAudit_log_eq_nil_iff, hgathers.ok_iff, exists_row_iff]
  · obtain ⟨rows, hrows⟩ := ownAudit_log_eq_nil_iff.mp hlog
    have hmem : ∀ r, r ∈ rows ↔
        ∃ s p, Found (known n) (Site.root n) s p ∧ (known n).row s p = .ok r := by
      intro r
      rw [hgathers.mem_iff hrows]
      exact or_iff_right List.not_mem_nil
    refine ⟨rows, by rw [ownAudit_of_ok hrows], hmem, fun r hr hkind => ?_, fun r hr hkind => ?_⟩
    · obtain ⟨s, p, hfound, hrow⟩ := (hmem r).mp hr
      exact status_of_script hfound.tellsOwner hrow hkind
    · obtain ⟨s, p, hfound, hrow⟩ := (hmem r).mp hr
      exact status_of_layout hfound.tellsOwner hrow hkind

/-- A script that sets a field of a table that is not there. -/
def strayScript (id name : String) : Node :=
  plain "Script" [("id", id), ("name", name)]
    [plain "Step" [("name", "Set Field"), ("index", "1")]
      [plain "Field" [("name", "f"), ("table", "T")] []]]

/-- A report with two scripts in a folder kept for deletion, one with a comma in its name. -/
def folderReport : Node :=
  plain "Report" []
    [plain "ScriptCatalog" [] [plain "Group" [("name", "To Delete")]
      [strayScript "1" "A, B", strayScript "2" "C"]]]

/-- A report with a field whose name ends with the mark for a script, and whose calculation refers to a
table that is not there. -/
def markReport : Node :=
  plain "Report" [] [plain "BaseTable" [("name", "T")]
    [plain "Field" [("name", "Script:")]
      [calculationOf "U::g"]]]

theorem exists_row_of_folderReport
    (hmem : ∀ r, r ∈ rows ↔ ∃ s p, Found (known folderReport) (Site.root folderReport) s p ∧
      (known folderReport).row s p = .ok r) :
    ∀ script ∈ ["A, B", "C"], ∃ r ∈ rows, r.kind = .script ∧ r.context = script ∧
      r.location = "Step 1: Set Field" := by
  obtain ⟨rs, hrs, hshown⟩ : ∃ rs, (known folderReport).allRows (Site.root folderReport) = .ok rs ∧
      rs.map (fun r => (r.kind, r.context, r.location)) =
        ["A, B", "C"].map fun script => (Kind.script, script, "Step 1: Set Field") := ⟨_, rfl, rfl⟩
  intro script hscript
  obtain ⟨r, hr, hshows⟩ := List.mem_map.mp (hshown ▸ List.mem_map_of_mem hscript)
  simp only [Prod.mk.injEq] at hshows
  obtain ⟨hkind, hcontext, hlocation⟩ := hshows
  have hfound := ((gathers_allRows (by decide)).mem_iff hrs).mp hr
  exact ⟨r, (hmem r).mpr (hfound.resolve_left List.not_mem_nil), hkind, hcontext, hlocation⟩

/-- Of two scripts in one folder kept for deletion, only the one without a comma in its name has its
reference marked for deletion; and a name that ends with a mark makes the audit fail. -/
theorem audit_standing_misread :
    (NoInfiniteBounds (Site.root folderReport) ∧ (ownAudit folderReport).log = [] ∧
      (∀ script ∈ ["A, B", "C"],
        inDeletedFolder (known folderReport).folders.scripts script = true) ∧
      ∃ rows : List Row, (ownAudit folderReport).rows = (arranged rows).map Row.cells ∧
        (∃ r ∈ rows, r.kind = .script ∧ r.context = "A, B" ∧ r.status ≠ .toDelete) ∧
        ∃ r ∈ rows, r.kind = .script ∧ r.context = "C" ∧ r.status = .toDelete) ∧
    NoInfiniteBounds (Site.root markReport) ∧ (ownAudit markReport).log ≠ [] := by
  have hfolder : NoInfiniteBounds (Site.root folderReport) := by decide
  have hmark : NoInfiniteBounds (Site.root markReport) := by decide
  have hlog : (ownAudit folderReport).log = [] := rfl
  obtain ⟨rows, hrows, hmem, hstatus, -⟩ := (audit_standing folderReport hfolder).2.1 hlog
  refine ⟨⟨hfolder, hlog, by decide, rows, hrows, ?_, ?_⟩, hmark, ?_⟩
  · obtain ⟨r, hr, hkind, hcontext, hlocation⟩ :=
      exists_row_of_folderReport hmem "A, B" (by decide)
    refine ⟨r, hr, hkind, hcontext, fun hdelete => ?_⟩
    rw [hstatus r hr hkind, Row.inScript, hcontext, hlocation] at hdelete
    obtain hspeaks | hscript | ⟨name, hname, -⟩ := hdelete
    · exact absurd hspeaks (by decide)
    · exact absurd hscript (by decide)
    · cases hname
  · obtain ⟨r, hr, hkind, hcontext, -⟩ := exists_row_of_folderReport hmem "C" (by decide)
    refine ⟨r, hr, hkind, hcontext, (hstatus r hr hkind).mpr (.inr (.inl ?_))⟩
    rw [hcontext]
    decide
  · rw [ne_eq, (audit_standing markReport hmark).1]
    intro hlegible
    obtain hspeaks | ⟨hscript, -⟩ := hlegible _ _ (.inr (.inr (.inl
      ⟨_, List.get_mem _ ⟨0, by decide⟩, _, List.get_mem _ ⟨0, by decide⟩, _,
        List.get_mem _ ⟨0, by decide⟩, rfl, List.get_mem _ ⟨0, by decide⟩⟩)))
    · exact absurd hspeaks (by decide)
    · exact absurd (hscript (by decide)) (by decide)

end DesignAudit.Dangling
