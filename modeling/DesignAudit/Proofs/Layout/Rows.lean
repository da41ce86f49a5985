import DesignAudit.Layout.Audit
import DesignAudit.Proofs.Catalog.Folder
import DesignAudit.Proofs.Text.Search

/-!
# One row for each layout

A layout element defines a layout or only refers to one; which it does is told by its name, by the
elements around it and by the element that holds it (`Defines`). The report has one row for each name
that is defined (`mem_names_definitions`). The uses of layouts come from seven searches that overlap.
A step that goes to a layout is found by one of them wherever it stands below a script, an object or
the item of a menu (`mem_uses_of_step`), so that its layout is not shown as unused
(`one_row_for_each_layout`). A layout without a name is an exception (`unnamed_layout_not_used`).
-/

namespace DesignAudit.Layout

open Markup Catalog Text

/-! ## Layouts that are defined -/

/-- The first catalogue of layouts has a folder of a name. -/
def IsFolder (root : Site) (name : String) : Prop :=
  ∃ c, root.first? "LayoutCatalog" = some c ∧ HoldsFolder "Layout" name c

/-- A layout element that defines a layout. -/
structure Defines (root s : Site) : Prop where
  mem : s ∈ root.all "Layout"
  noFolder : ¬ IsFolder root (nameOf s)
  outside : ∀ n ∈ s.above.take 20, n.tag ≠ "LayoutCatalog"
  noReference : ∀ p ∈ s.parent?, p.tag ∉ ["Step", "Parameter", "ButtonObj", "Relationship"]

theorem mem_folderNames_iff {root : Site} {name : String} :
    name ∈ folderNames (catalogue? root) ↔ IsFolder root name := by
  rw [catalogue?, IsFolder]
  cases root.first? "LayoutCatalog" with
  | none => simp [folderNames]
  | some c =>
    simp only [Option.map_some, folderNames, Option.some.injEq, exists_eq_left']
    exact mem_foldersIn_children (by decide)

theorem isDefinition_iff {root s : Site} :
    s ∈ (root.all "Layout").filter (isDefinition (folderNames (catalogue? root))) ↔
      Defines root s := by
  have hfolder : (folderNames (catalogue? root)).contains (nameOf s) = false ↔
      ¬ IsFolder root (nameOf s) := by
    rw [← Bool.not_eq_true, List.contains_iff_mem, mem_folderNames_iff]
  have hcatalogued : isCatalogued s = false ↔ ∀ n ∈ s.above.take 20, n.tag ≠ "LayoutCatalog" := by
    simp [isCatalogued]
  have hreference : isReference s = false ↔
      ∀ p ∈ s.parent?, p.tag ∉ ["Step", "Parameter", "ButtonObj", "Relationship"] := by
    rw [isReference, Site.parentTag?]
    cases s.parent? with
    | none => simp
    | some p => simp
  rw [List.mem_filter, isDefinition, Bool.and_eq_true, Bool.and_eq_true, Bool.not_eq_true',
    Bool.not_eq_true', Bool.not_eq_true', hfolder, hcatalogued, hreference]
  exact ⟨fun ⟨hmem, ⟨hname, hout⟩, href⟩ => ⟨hmem, hname, hout, href⟩,
    fun h => ⟨h.mem, ⟨h.noFolder, h.outside⟩, h.noReference⟩⟩

/-- The layouts that are kept are those that some element defines. -/
theorem mem_names_definitions {root : Site} {name : String} :
    name ∈ (definitions root).names ↔ ∃ s, Defines root s ∧ nameOf s = name := by
  rw [Register.mem_names_iff, definitions, Register.has_ofList]
  constructor
  · rintro ⟨path, h⟩
    obtain ⟨s, hs, heq⟩ := List.mem_map.mp h
    exact ⟨s, isDefinition_iff.mp hs, (Prod.mk.inj heq).1⟩
  · rintro ⟨s, hs, rfl⟩
    exact ⟨_, List.mem_map_of_mem (isDefinition_iff.mpr hs)⟩

/-! ## Steps that go to a layout -/

/-- A step that goes to a layout of a name: the first layout element in it has this name. -/
def GoesTo (step : Site) (name : String) : Prop :=
  step.tag = "Step" ∧ step.node.attr? "name" = some "Go to Layout" ∧
    ∃ l, step.first? "Layout" = some l ∧ l.node.attr? "name" = some name

/-- A place from which a user or a script gets to a layout: below a script, below an object of a
layout, or below the item of a menu. -/
inductive Performed (root step : Site) : Prop where
  | script {s : Site} (mem : s ∈ root.all "Script") (below : step ∈ s.below)
  | object {l o : Site} (layout : l ∈ root.all "Layout") (mem : o ∈ l.all "Object")
      (below : step ∈ o.below)
  | item {s m i : Site} (set : s ∈ root.all "CustomMenuSet") (menu : m ∈ s.all "CustomMenu")
      (mem : i ∈ m.all "CustomMenuItem") (below : step ∈ i.below)

section Steps

variable {known : Register String} {step : Site} {name : String}

theorem GoesTo.mem_goSteps (h : GoesTo step name) {s : Site} (hbelow : step ∈ s.below) :
    step ∈ goSteps s :=
  List.mem_filter.mpr ⟨hbelow, by simp [h.1, h.2.1]⟩

theorem GoesTo.target?_eq (h : GoesTo step name) : target? step = some name := by
  obtain ⟨-, -, l, hl, hname⟩ := h
  rw [target?, hl]
  exact hname

theorem mem_use (hne : name ≠ "") (hknown : name ∈ known.names) (source : Source) (text : String) :
    ⟨name, source, text⟩ ∈ use known source text (some name) := by
  have hhas : known.has name = true := Register.mem_names_iff.mp hknown
  simp [use, Option.filter, hne, hhas]

/-- A step that goes to a layout with a name is found below any element around it. -/
theorem GoesTo.mem_goUses (h : GoesTo step name) (hne : name ≠ "") (hknown : name ∈ known.names)
    {s : Site} (hbelow : step ∈ s.below) (source : Source) (text : String) :
    ⟨name, source, text⟩ ∈ (goSteps s).flatMap fun step => use known source text (target? step) := by
  refine List.mem_flatMap.mpr ⟨step, h.mem_goSteps hbelow, ?_⟩
  rw [h.target?_eq]
  exact mem_use hne hknown source text

/-- A step that goes to a layout with a name is a use of it, wherever it is performed. -/
theorem mem_uses_of_step {root : Site} (h : GoesTo step name) (hperformed : Performed root step)
    (hne : name ≠ "") (hknown : name ∈ known.names) :
    ∃ source text, ⟨name, source, text⟩ ∈ uses known root := by
  simp only [uses, List.mem_append]
  cases hperformed with
  | @script s mem below =>
    have hfound : ⟨name, .script, s.node.attrD "name" "Unknown Script"⟩ ∈ scriptUses known s := by
      refine List.mem_append_left _ (List.mem_flatMap.mpr ⟨step, h.mem_goSteps below, ?_⟩)
      rw [h.target?_eq]
      exact List.mem_append_left _ (mem_use hne hknown _ _)
    exact ⟨_, _, .inl (.inl (.inl (.inl (.inl (.inl (List.mem_flatMap.mpr ⟨s, mem, hfound⟩))))))⟩
  | @object l o layout mem below =>
    have hfound : ∃ text, ⟨name, .button, text⟩ ∈ buttonUses known l :=
      ⟨_, List.mem_flatMap.mpr ⟨o, mem, List.mem_append_left _ (h.mem_goUses hne hknown below _ _)⟩⟩
    obtain ⟨text, hfound⟩ := hfound
    exact ⟨_, _, .inl (.inl (.inl (.inl (.inl (.inr (List.mem_flatMap.mpr ⟨l, layout, hfound⟩))))))⟩
  | @item s m i set menu mem below =>
    have hfound : ∃ text, ⟨name, .other, text⟩ ∈ menuUses known s :=
      ⟨_, List.mem_flatMap.mpr ⟨m, menu, List.mem_flatMap.mpr
        ⟨i, mem, h.mem_goUses hne hknown below _ _⟩⟩⟩
    obtain ⟨text, hfound⟩ := hfound
    exact ⟨_, _, .inr (List.mem_flatMap.mpr ⟨s, set, hfound⟩)⟩

end Steps

/-! ## The log -/

/-- The openings of the lines that the audit writes, an empty line apart. -/
def openings : List String :=
  ["Debug: Found ", "Skipping '", "Found ", "Warning: Found ", "  ", "Layouts"]

/-- Each line that is written for a document is empty or has one of these openings. -/
theorem opens_of_mem_log (root : Site) (known : Register String) :
    ∀ line ∈ log root known, line = "" ∨ opensWith openings line = true := by
  rw [log]
  simp only [List.forall_mem_append, List.forall_mem_cons]
  refine ⟨⟨⟨⟨⟨⟨.inr (opensWith_append (opensWith_append₂ (by decide) _ _) _),
    .inr (opensWith_append₂ (by decide) _ _), List.forall_mem_nil _⟩, ?_⟩,
    .inr (opensWith_append₂ (by decide) _ _), List.forall_mem_nil _⟩, ?_⟩, .inl trivial,
    .inr (by decide), List.forall_mem_nil _⟩, ?_⟩
  · -- layouts that bear the name of a folder
    rw [List.forall_mem_map]
    exact fun _ _ => .inr (opensWith_append₂ (by decide) _ _)
  · rw [overlapNotes]
    split
    · exact List.forall_mem_nil _
    · rw [List.forall_mem_cons, List.forall_mem_map]
      exact ⟨.inr (opensWith_append₂ (by decide) _ _),
        fun _ _ => .inr (opensWith_append (by decide) _)⟩
  · rw [folderCounts, List.forall_mem_map]
    intro path _
    have hpath : opensWith openings ("  " ++ path) = true := opensWith_append (by decide) path
    exact .inr (opensWith_append (opensWith_append₂ hpath _ _) _)

/-! ## Rows -/

theorem arranged_perm (rows : List Row) : (arranged rows).Perm rows :=
  ((sortBy_perm _ _).trans (sortBy_perm _ _)).trans (sortBy_perm _ _)

theorem names_rowsOf (known : Register String) (all : List Use) :
    (rowsOf known all).map Row.name = known.names := by
  rw [rowsOf, Register.names, List.map_map]
  rfl

/-- A status is shown with a sign of warning exactly if there is no use. -/
theorem warns_statusText_iff (total : Nat) (shelf : Shelf) :
    beginsWith "⚠️" (statusText total shelf) = true ↔ total = 0 := by
  cases total with
  | zero =>
    have hwarns : beginsWith "⚠️" (statusText 0 shelf) = true := by cases shelf <;> decide
    exact iff_of_true hwarns rfl
  | succ n =>
    have hsame : statusText (n + 1) shelf = statusText 1 shelf := by simp [statusText]
    have hplain : beginsWith "⚠️" (statusText 1 shelf) = false := by cases shelf <;> decide
    rw [hsame, hplain]
    exact iff_of_false Bool.false_ne_true n.succ_ne_zero

def reportRows (root : Site) : List Row :=
  arranged (rowsOf (definitions root) (uses (definitions root) root))

theorem audit_rows {raw : String} {root : Site} (hopen : openDocument "find" raw = .ok root) :
    (audit raw).rows = (reportRows root).map Row.cells := by
  rw [audit, hopen]
  rfl

theorem names_reportRows_perm (root : Site) :
    ((reportRows root).map Row.name).Perm (definitions root).names :=
  ((arranged_perm _).map Row.name).trans (.of_eq (names_rowsOf _ _))

/-- A row tells all uses of its layout. -/
theorem uses_of_mem_reportRows {root : Site} {r : Row} (h : r ∈ reportRows root) :
    r.uses = (uses (definitions root) root).filter (·.layout == r.name) := by
  obtain ⟨e, -, rfl⟩ := List.mem_map.mp ((arranged_perm _).mem_iff.mp h)
  rfl

/-- **Each layout has one row, and a layout that is gone to is used.** For every document that can be
read the audit completes. It has one row for each name that a layout element defines and no other row.
The status of a row begins with a sign of warning exactly if its total is zero, and this is not so if
a step below a script, below an object of a layout or below the item of a menu goes to the layout and
the layout has a name. -/
theorem one_row_for_each_layout {raw : String} {root : Site}
    (hopen : openDocument "find" raw = .ok root) :
    (∀ line ∈ (audit raw).log, beginsWith "Error in UnusedLayoutsCheck: " line = false) ∧
    ∃ rows : List Row, (audit raw).rows = rows.map Row.cells ∧
      (rows.map Row.name).Nodup ∧
      (∀ name, name ∈ rows.map Row.name ↔ ∃ s, Defines root s ∧ nameOf s = name) ∧
      (∀ r ∈ rows, r.cells.lookup "Layout Name" = some (.text r.name) ∧
        r.cells.lookup "Total Usage" = some (.whole r.total) ∧
        ∃ status, r.cells.lookup "Status" = some (.text status) ∧
          (beginsWith "⚠️" status = true ↔ r.total = 0)) ∧
      ∀ step name, GoesTo step name → Performed root step → name ≠ "" →
        ∀ r ∈ rows, r.name = name → 1 ≤ r.total := by
  have hperm := names_reportRows_perm root
  refine ⟨fun line hline => ?_, reportRows root, audit_rows hopen, hperm.nodup_iff.mpr ?_,
    fun name => ?_, fun r _ => ⟨rfl, rfl, _, rfl, warns_statusText_iff _ _⟩, ?_⟩
  · rw [audit, hopen] at hline
    rcases opens_of_mem_log root _ line hline with rfl | hopens
    · decide
    · exact beginsWith_eq_false_of_opensWith (by decide) hopens
  · exact Register.nodup_names_ofList _
  · rw [hperm.mem_iff, mem_names_definitions]
  · rintro step name hgoes hperformed hne r hr rfl
    have hknown : r.name ∈ (definitions root).names :=
      hperm.mem_iff.mp (List.mem_map_of_mem hr)
    obtain ⟨source, text, huse⟩ := mem_uses_of_step hgoes hperformed hne hknown
    rw [Row.total, uses_of_mem_reportRows hr]
    exact List.length_pos_of_mem (List.mem_filter.mpr ⟨huse, beq_self_eq_true _⟩)

/-- A report with a layout that an object of another one goes to, and with a layout that bears the
name of a folder. -/
def shelvedReport : String :=
  "<F><LayoutCatalog><Group name='G'><Layout id='1' name='M'/></Group></LayoutCatalog>" ++
  "<Layout id='1' name='M'><Object><Step name='Go to Layout'><Layout name='N'/></Step></Object>" ++
  "</Layout><Layout name='N'/><Layout name='G'/></F>"

def shelvedTree : Node :=
  plain "F" []
    [plain "LayoutCatalog" []
      [plain "Group" [("name", "G")] [plain "Layout" [("id", "1"), ("name", "M")] []]],
     plain "Layout" [("id", "1"), ("name", "M")]
      [plain "Object" []
        [plain "Step" [("name", "Go to Layout")] [plain "Layout" [("name", "N")] []]]],
     plain "Layout" [("name", "N")] [], plain "Layout" [("name", "G")] []]

set_option maxRecDepth 20000 in
theorem read_shelved : read shelvedReport = .ok (some shelvedTree) :=
  (read_eq_of_toList (toList_three _ _ _) (by decide) (by rfl) (by rfl)).trans (by rfl)

/-- The two layouts that are defined have a row each, and the one that is gone to is used. -/
theorem shelved_rows :
    ∃ rows : List Row, (audit shelvedReport).rows = rows.map Row.cells ∧
      (rows.map Row.name).Perm ["M", "N"] ∧ ∃ r ∈ rows, r.name = "N" ∧ 1 ≤ r.total := by
  obtain ⟨-, rows, hrows, hnodup, hmem, -, hused⟩ :=
    one_row_for_each_layout (openDocument_of_read read_shelved "find")
  have hnames : (definitions (Site.root shelvedTree)).names = ["M", "N"] := by decide
  have hmem : ∀ name, name ∈ rows.map Row.name ↔ name ∈ ["M", "N"] := by
    intro name
    rw [hmem, ← mem_names_definitions, hnames]
  obtain ⟨r, hr, hname⟩ := List.mem_map.mp ((hmem "N").mpr (by decide))
  refine ⟨rows, hrows, (List.perm_ext_iff_of_nodup hnodup (by decide)).mpr hmem, r, hr, hname, ?_⟩
  let layout := ((Site.root shelvedTree).all "Layout").get ⟨1, by decide⟩
  let object := (layout.all "Object").get ⟨0, by decide⟩
  let step := object.below.get ⟨0, by decide⟩
  have hgoes : GoesTo step "N" := ⟨by decide, by decide, _, rfl, by decide⟩
  exact hused step "N" hgoes (.object (List.get_mem _ _) (List.get_mem _ _) (List.get_mem _ _))
    (by decide) r hr hname

/-- A report with a layout whose name is empty, to which a script goes. -/
def unnamedReport : String :=
  "<F><Layout name=''/><Layout name='M'/><Script name='S'><Step name='Go to Layout'>" ++
  "<Layout name=''/></Step></Script></F>"

def unnamedTree : Node :=
  plain "F" []
    [plain "Layout" [("name", "")] [], plain "Layout" [("name", "M")] [],
     plain "Script" [("name", "S")]
      [plain "Step" [("name", "Go to Layout")] [plain "Layout" [("name", "")] []]]]

set_option maxRecDepth 20000 in
theorem read_unnamed : read unnamedReport = .ok (some unnamedTree) :=
  (read_eq_of_toList (toList_two _ _) (by decide) (by rfl) (by rfl)).trans (by rfl)

/-- A layout whose name is empty has a row, but a step that goes to it does not count. -/
theorem unnamed_layout_not_used :
    ∃ root step, openDocument "find" unnamedReport = .ok root ∧ GoesTo step "" ∧
      Performed root step ∧ (∃ s, Defines root s ∧ nameOf s = "") ∧
      ∃ row ∈ (audit unnamedReport).rows, row.lookup "Layout Name" = some (.text "") ∧
        row.lookup "Total Usage" = some (.whole 0) := by
  have hopen := openDocument_of_read read_unnamed "find"
  let script := ((Site.root unnamedTree).all "Script").get ⟨0, by decide⟩
  let step := script.below.get ⟨0, by decide⟩
  have hknown : "" ∈ (definitions (Site.root unnamedTree)).names := by decide
  obtain ⟨r, hr, hname⟩ := List.mem_map.mp
    ((names_reportRows_perm (Site.root unnamedTree)).mem_iff.mpr hknown)
  have hnone : (uses (definitions (Site.root unnamedTree)) (Site.root unnamedTree)).filter
      (·.layout == "") = [] := by decide
  have htotal : r.total = 0 := by
    rw [Row.total, uses_of_mem_reportRows hr, hname, hnone]
    rfl
  refine ⟨_, step, hopen, ⟨by decide, by decide, _, rfl, by decide⟩,
    .script (List.get_mem _ _) (List.get_mem _ _), mem_names_definitions.mp hknown, r.cells, ?_, ?_,
    ?_⟩
  · rw [audit_rows hopen]
    exact List.mem_map_of_mem hr
  · rw [← hname]
    rfl
  · exact congrArg (fun n : Nat => some (Sheet.Cell.whole n)) htotal

end DesignAudit.Layout
