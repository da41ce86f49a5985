import DesignAudit.Proofs.Catalog.Folder
import DesignAudit.Proofs.Script.Report

/-!
# The folder of a script

The audit of scripts takes a script to be in the last folder, in document order, that holds an
element with its id (`index_folders_get?`). Such an element may be the definition of the script or a
reference to it in a step of another script, so that a reference in a later folder moves the script
there. The catalogue keeps the path of the definition alone.

`folder_of_filed_script` says where a script is taken to be, and that this is its own folder as long
as no other folder holds its id.
-/

namespace DesignAudit.Script

open Markup Text Catalog

/-! ## Where a script is taken to be -/

/-- Whether a folder holds a definition of, or a reference to, the script with an id. -/
def holdsId (id : String) (folder : Site) : Bool :=
  (folder.all "Script").any fun s => s.node.named? "id" == some id

/-- The last folder, in document order, that holds an id. -/
def lastHolder? (root : Site) (id : String) : Option Site :=
  (root.all "Group").reverse.find? (holdsId id)

/-- The last definition of the script of a name, in document order. -/
def lastDefinition? (root : Site) (name : String) : Option Site :=
  (namedDefinitions root).reverse.find? fun d => definedName d == name

/-- The path of the folder that a script is taken to be in: the last one that holds the id of its
last definition. -/
def usedFolder (root : Site) (name : String) : String :=
  (((lastDefinition? root name).bind fun d => lastHolder? root (d.node.attr "id")).map
    folderPath).getD ""

theorem lookup_flatMap_eq_find? {β γ : Type} {entries : β → List (String × γ)} {p : β → Bool}
    {value : β → γ} {name : String}
    (h : ∀ x, (entries x).lookup name = if p x then some (value x) else none) (xs : List β) :
    (xs.flatMap entries).lookup name = (xs.find? p).map value := by
  induction xs with
  | nil => rfl
  | cons x xs ih =>
    rw [List.flatMap_cons, List.lookup_append, h, ih, List.find?_cons]
    cases p x <;> rfl

theorem lookup_ids (id path : String) (xs : List Site) :
    (xs.filterMap fun s => (s.node.named? "id").map (·, path)).lookup id =
      if xs.any fun s => s.node.named? "id" == some id then some path else none := by
  induction xs with
  | nil => rfl
  | cons s xs ih =>
    rw [List.filterMap_cons, List.any_cons]
    cases s.node.named? "id" with
    | none => exact ih
    | some other =>
      rw [Option.map_some, List.lookup_cons, ih, BEq.comm, Option.some_beq_some]
      cases other == id <;> rfl

/-- The folder of an id is the last one that holds it. -/
theorem folders_get? (root : Site) (id : String) :
    (Script.folders root).get? id = (lastHolder? root id).map folderPath := by
  rw [Script.folders, Register.get?_ofList, List.reverse_flatMap]
  refine lookup_flatMap_eq_find? (fun g => ?_) _
  rw [Function.comp_apply, holdsId, ← List.any_reverse, ← lookup_ids, List.filterMap_reverse]

theorem index_folders_get? (root : Site) (name : String) :
    (Index.of root).folders.get? name =
      (lastDefinition? root name).map fun d =>
        ((lastHolder? root (d.node.attr "id")).map folderPath).getD "" := by
  have hentries : ∀ d : Site,
      ([(definedName d, (Script.folders root).getD (d.node.attr "id") "")] :
        List (String × String)).lookup name =
        if definedName d == name then
          some (((lastHolder? root (d.node.attr "id")).map folderPath).getD "")
        else none := by
    intro d
    rw [Register.getD, folders_get?, List.lookup_cons, BEq.comm]
    cases definedName d == name <;> rfl
  rw [lastDefinition?, ← lookup_flatMap_eq_find? hentries, ← List.map_eq_flatMap, List.map_reverse]
  exact Register.get?_ofList _ name

/-! ## Scripts in the folders of one catalogue -/

/-- A document with one catalogue of scripts, below its root, whose scripts have distinct ids and
names. -/
structure OneCatalogue (root : Site) : Prop where
  outside : ∀ n ∈ root.node :: root.above, n.tag ≠ "ScriptCatalog"
  single : (root.all "ScriptCatalog").length = 1
  distinct : DistinctItems "ScriptCatalog" "Script" root

/-- A script that is defined in the catalogue, in folders with names that are nested at most eleven
deep. -/
structure Filed (root s : Site) : Prop where
  mem : s ∈ root.all "Script"
  catalogued : ∃ n ∈ s.above, n.tag = "ScriptCatalog"
  folders : ∀ n ∈ inside "ScriptCatalog" s, n.tag = "Group" ∧ n.attr "name" ≠ ""
  depth : (inside "ScriptCatalog" s).length ≤ 11
  defined : isDefinition s = true
  id_ne : s.node.attr "id" ≠ ""
  name_ne : s.node.attr "name" ≠ ""

/-- Neither another definition of the name nor a folder elsewhere stands in the way: the definitions
of the name have one id, and a folder that holds the id is one that the script is filed in. -/
structure Unmoved (root s : Site) : Prop where
  one_id : ∀ d ∈ namedDefinitions root, definedName d = s.node.attr "name" →
    d.node.attr "id" = s.node.attr "id"
  held : ∀ g ∈ root.all "Group", holdsId (s.node.attr "id") g = true → s ∈ g.below
  unheld : inside "ScriptCatalog" s = [] →
    ∀ g ∈ root.all "Group", holdsId (s.node.attr "id") g = false

theorem OneCatalogue.apart {root : Site} (h : OneCatalogue root) : Apart "ScriptCatalog" root := by
  refine ⟨h.outside, fun c hc => ?_⟩
  obtain ⟨d, hd⟩ := List.length_eq_one_iff.mp h.single
  rw [List.eq_nil_iff_forall_not_mem]
  intro e he
  -- a second catalogue below the first one would be the same place, and smaller than itself
  have hmem := Site.mem_all_trans hc he
  rw [hd, List.mem_singleton] at hc hmem
  subst hc hmem
  exact Nat.lt_irrefl _ (Site.sizeOf_lt_of_mem_below (Site.mem_all.mp he).1)

section Filed

variable {root s : Site}

theorem Filed.definedName_eq (hs : Filed root s) : definedName s = s.node.attr "name" := by
  have hne := hs.name_ne
  rw [Node.attr, Node.attrD] at hne ⊢
  rw [definedName, Node.attrD]
  cases h : s.node.attr? "name" with
  | none => rw [h] at hne; exact absurd rfl hne
  | some v => rfl

theorem Filed.mem_namedDefinitions (hs : Filed root s) : s ∈ namedDefinitions root :=
  Script.mem_namedDefinitions.mpr ⟨hs.mem, hs.defined, hs.definedName_eq ▸ hs.name_ne⟩

theorem Filed.isEntry (hs : Filed root s) :
    IsEntry "ScriptCatalog" "Script" (s.node.attr "name") s where
  shelved := ⟨hs.catalogued, fun n hn => (hs.folders n hn).1 ▸ by decide,
    fun n hn _ => (hs.folders n hn).2⟩
  name_eq := rfl
  id_ne := hs.id_ne

/-- The last definition of the name of a filed script exists. -/
theorem Filed.exists_lastDefinition (hs : Filed root s) :
    ∃ d ∈ namedDefinitions root, definedName d = s.node.attr "name" ∧
      lastDefinition? root (s.node.attr "name") = some d := by
  have hsome : (lastDefinition? root (s.node.attr "name")).isSome = true := by
    rw [lastDefinition?, List.find?_isSome]
    exact ⟨s, List.mem_reverse.mpr hs.mem_namedDefinitions, beq_iff_eq.mpr hs.definedName_eq⟩
  obtain ⟨d, hd⟩ := Option.isSome_iff_exists.mp hsome
  exact ⟨d, List.mem_reverse.mp (List.mem_of_find?_eq_some hd),
    beq_iff_eq.mp (List.find?_some hd :), hd⟩

theorem Filed.index_folders_get? (hs : Filed root s) :
    (Index.of root).folders.get? (s.node.attr "name") =
      some (usedFolder root (s.node.attr "name")) := by
  obtain ⟨d, -, -, hd⟩ := hs.exists_lastDefinition
  rw [Script.index_folders_get?, usedFolder, hd]
  rfl

/-- A filed script that stands in a folder is a child of a folder of the document, whose path are
the folders around the script. -/
theorem Filed.exists_folder (hs : Filed root s) (hone : OneCatalogue root)
    (hinside : inside "ScriptCatalog" s ≠ []) :
    ∃ p ∈ root.all "Group", s ∈ p.children ∧
      folderPath p = join "/" (foldersAmong (inside "ScriptCatalog" s)) := by
  obtain ⟨c, hc, hsc⟩ : ∃ c ∈ root.all "ScriptCatalog", s ∈ c.below := by
    have hmem : s ∈ (root.all "ScriptCatalog").flatMap Site.below := by
      rw [hone.apart.flatMap_below, List.mem_filter, List.any_eq_true]
      obtain ⟨n, hn, htag⟩ := hs.catalogued
      exact ⟨(Site.mem_all.mp hs.mem).1, n, hn, beq_iff_eq.mpr htag⟩
    exact List.mem_flatMap.mp hmem
  obtain ⟨hcroot, hctag⟩ := Site.mem_all.mp hc
  obtain ⟨p, hsp, hp⟩ := Site.exists_parent hsc
  have habove := hone.apart.above_eq hc hsc
  have hfolders := hs.folders
  have hdepth := hs.depth
  obtain ⟨n, around, heq⟩ := List.exists_cons_of_ne_nil hinside
  rw [Site.above_of_mem_children hsp, heq, List.cons_append] at habove
  obtain ⟨rfl, hpabove⟩ := List.cons.inj habove
  rw [heq, List.forall_mem_cons] at hfolders
  obtain ⟨⟨hgroup, -⟩, haround⟩ := hfolders
  have hpc : p ∈ c.below := by
    refine hp.resolve_left ?_
    rintro rfl
    exact absurd (hgroup.symm.trans hctag) (by decide)
  refine ⟨p, Site.mem_all.mpr ⟨Site.below_trans hcroot hpc, hgroup⟩, hsp, ?_⟩
  -- the folders around are those up to the catalogue, and at most ten
  have hcatalogue : (c.node.tag == "Group") = false := by
    rw [show c.node.tag = "ScriptCatalog" from hctag]
    decide
  have hnames : p.above.takeWhile (·.tag == "Group") = around := by
    rw [hpabove, List.takeWhile_append_of_pos fun n hn => beq_iff_eq.mpr (haround n hn).1,
      List.takeWhile_cons_of_neg (by simp [hcatalogue]), List.append_nil]
  have hfilter : around.filter (·.tag == "Group") = around :=
    List.filter_eq_self.mpr fun n hn => beq_iff_eq.mpr (haround n hn).1
  rw [heq, List.length_cons] at hdepth
  rw [folderPath, hnames, List.take_of_length_le (Nat.le_of_succ_le_succ hdepth), heq,
    foldersAmong_cons_group hgroup, foldersAmong, hfilter]

/-- Where all folders that hold the id of a script enclose it, the innermost of them is the last. -/
theorem lastHolder?_eq_some {p : Site} (hp : p ∈ root.all "Group") (hsp : s ∈ p.children)
    (hscript : s.tag = "Script") (hid : s.node.attr "id" ≠ "")
    (hheld : ∀ g ∈ root.all "Group", holdsId (s.node.attr "id") g = true → s ∈ g.below) :
    lastHolder? root (s.node.attr "id") = some p := by
  have hholds : holdsId (s.node.attr "id") p = true := by
    rw [holdsId, List.any_eq_true]
    exact ⟨s, Site.mem_all.mpr ⟨Site.mem_below_of_mem_children hsp, hscript⟩,
      beq_iff_eq.mpr (named?_eq_some_iff.mpr ⟨rfl, hid⟩)⟩
  have hsome : (lastHolder? root (s.node.attr "id")).isSome = true := by
    rw [lastHolder?, List.find?_isSome]
    exact ⟨p, List.mem_reverse.mpr hp, hholds⟩
  obtain ⟨g, hg⟩ := Option.isSome_iff_exists.mp hsome
  rw [hg, Option.some_inj]
  obtain ⟨hgholds, later, earlier, hsplit, hlater⟩ := List.find?_eq_some_iff_append.mp hg
  have hsplit := (List.reverse_eq_iff.mp hsplit).trans List.reverse_append
  rw [List.reverse_cons, List.append_assoc, List.singleton_append] at hsplit
  have hmem : g ∈ root.all "Group" := hsplit ▸ List.mem_append_right _ List.mem_cons_self
  refine (Site.eq_or_mem_below_of_mem_children hsp (hheld g hmem hgholds)).resolve_right ?_
  intro hpg
  -- the folder of the script stands neither behind the last holder nor, being below it, in front
  have horder := (Site.below_pairwise root).sublist (List.filter_sublist (p := (·.tag == "Group")))
  rw [← Site.all, hsplit, List.pairwise_append] at horder
  rw [hsplit, List.mem_append, List.mem_cons, List.mem_reverse, List.mem_reverse] at hp
  rcases hp with hp | rfl | hp
  · exact horder.2.2 p (List.mem_reverse.mpr hp) g List.mem_cons_self hpg
  · exact Nat.lt_irrefl _ (Site.sizeOf_lt_of_mem_below hpg)
  · have hnot := hlater p hp
    rw [hholds] at hnot
    exact absurd hnot (by decide)

theorem Unmoved.usedFolder_eq (hunmoved : Unmoved root s) (hone : OneCatalogue root)
    (hs : Filed root s) :
    usedFolder root (s.node.attr "name") =
      join "/" (foldersAmong (inside "ScriptCatalog" s)) := by
  obtain ⟨d, hd, hname, hlast⟩ := hs.exists_lastDefinition
  rw [usedFolder, hlast, Option.bind_some, hunmoved.one_id d hd hname]
  by_cases hinside : inside "ScriptCatalog" s = []
  · have hnone : lastHolder? root (s.node.attr "id") = none := by
      rw [lastHolder?, List.find?_eq_none]
      intro g hg
      rw [hunmoved.unheld hinside g (List.mem_reverse.mp hg)]
      decide
    rw [hnone, hinside]
    rfl
  · obtain ⟨p, hp, hsp, hpath⟩ := hs.exists_folder hone hinside
    rw [lastHolder?_eq_some hp hsp (Site.mem_all.mp hs.mem).2 hs.id_ne hunmoved.held,
      Option.map_some, hpath]
    rfl

end Filed

/-! ## The status that a folder gives -/

theorem special?_eq_deletion_iff {name folder : String} :
    special? name folder = some .deletion ↔ has "todelete" (lower folder) = true := by
  constructor
  · intro h
    by_contra hnot
    simp only [special?, hnot, if_false] at h
    repeat' split at h
    all_goals cases h
  · intro h
    rw [special?, if_pos h]

/-- A script is scheduled for deletion by its folder alone. -/
theorem statusOf_eq_deletion_iff {name folder : String} {uses count : Nat} :
    statusOf name folder uses count = .deletion ↔ has "todelete" (lower folder) = true := by
  rw [← @special?_eq_deletion_iff name folder, statusOf]
  cases special? name folder with
  | some status => simp
  | none =>
    simp only [reduceCtorEq, iff_false]
    repeat' split
    all_goals decide

theorem status_cell_eq_deletion_iff (r : Row) :
    r.cells.lookup "Status" = some (.text "Scheduled For Deletion") ↔
      has "todelete" (lower r.folder) = true := by
  have hcell : r.cells.lookup "Status" = some (.text r.status.text) := rfl
  rw [hcell, Option.some_inj, Sheet.Cell.text.injEq, ← statusOf_eq_deletion_iff, ← Row.status]
  cases r.status <;> decide

/-! ## The folder that the report uses -/

/-- **The folder that the report takes a script to be in.** Let a document have one catalogue of
scripts, and a script be defined in it, in folders with names that are nested at most eleven deep.
The catalogue keeps these folders as the path of the script. The report takes the script to be in
the last folder, in document order, that holds an element with the id of its last definition,
references in the steps of other scripts included. As long as no other definition has its name and
no other folder holds its id, this is its own folder, with the same names on the path. The script is
scheduled for deletion exactly if the folder that it is taken to be in says so. -/
theorem folder_of_filed_script [Marks] (debug : Bool) {raw : String} {root : Site}
    (hopen : openDocument "findall" raw = .ok root) (hone : OneCatalogue root) {s : Site}
    (hs : Filed root s) :
    (build root).scriptPaths.get? (s.node.attr "name") =
      some (Catalog.pathText (foldersAmong (inside "ScriptCatalog" s))) ∧
    (Index.of root).folders.get? (s.node.attr "name") =
      some (usedFolder root (s.node.attr "name")) ∧
    (Unmoved root s → usedFolder root (s.node.attr "name") =
      join "/" (foldersAmong (inside "ScriptCatalog" s))) ∧
    (AllPlaced root → ∃ r ∈ reportRows debug raw, r.name = s.node.attr "name") ∧
    ∀ r ∈ reportRows debug raw, r.name = s.node.attr "name" →
      r.cells ∈ (audit debug raw).rows ∧ r.folder = usedFolder root (s.node.attr "name") ∧
      (r.cells.lookup "Status" = some (.text "Scheduled For Deletion") ↔
        has "todelete" (lower (usedFolder root (s.node.attr "name"))) = true) := by
  refine ⟨hone.apart.get?_path (by decide) hone.distinct hs.name_ne hs.mem hs.isEntry,
    hs.index_folders_get?, fun hunmoved => hunmoved.usedFolder_eq hone hs, ?_, ?_⟩
  · intro hplaced
    obtain ⟨usages, husages⟩ := exists_referenceUsages_iff.mpr hplaced
    have hhas := has_index_iff.mpr ⟨s, hs.mem_namedDefinitions, hs.definedName_eq⟩
    exact ⟨_, (mem_reportRows debug hopen).mpr ⟨usages, husages, _, hhas, rfl⟩, rfl⟩
  intro r hr hname
  have hfolder : r.folder = usedFolder root (s.node.attr "name") := by
    obtain ⟨usages, -, name, -, rfl⟩ := (mem_reportRows debug hopen).mp hr
    obtain rfl : name = s.node.attr "name" := hname
    show (Index.of root).folders.getD _ "" = _
    rw [Register.getD, hs.index_folders_get?, Option.getD_some]
  refine ⟨?_, hfolder, ?_⟩
  · rw [audit_rows]
    exact List.mem_map_of_mem hr
  · rw [status_cell_eq_deletion_iff, hfolder]

/-- A report in which a script of the folder `ToDelete` refers to one of the folder `Main`. -/
def misplacedReport : String :=
  "<F><ScriptCatalog><Group name='Main'><Script id='1' name='B'><StepList><Step id='89'/>" ++
  "</StepList></Script></Group><Group name='ToDelete'><Script id='2' name='A'><StepList>" ++
  "<Step id='148'><Script id='1' name='B'/></Step></StepList></Script></Group></ScriptCatalog></F>"

def misplacedTree : Node :=
  let script (id name stepId : String) (called : List Node) :=
    plain "Script" [("id", id), ("name", name)]
      [plain "StepList" [] [plain "Step" [("id", stepId)] called]]
  let reference := plain "Script" [("id", "1"), ("name", "B")] []
  plain "F" []
    [plain "ScriptCatalog" []
      [plain "Group" [("name", "Main")] [script "1" "B" "89" []],
       plain "Group" [("name", "ToDelete")] [script "2" "A" "148" [reference]]]]

/-- The script elements of `misplacedReport`: the two definitions, and the reference. -/
def misplacedScripts : List Site := (Site.root misplacedTree).all "Script"

set_option maxRecDepth 20000 in
theorem read_misplaced : read misplacedReport = .ok (some misplacedTree) :=
  (read_eq_of_toList (toList_three _ _ _) (by decide) (by rfl) (by rfl)).trans (by rfl)

/-- The script that is referred to is taken to be in the folder of the script with the reference,
and scheduled for deletion with it. The other one is not moved. -/
theorem misplaced_folder :
    (build (Site.root misplacedTree)).scriptPaths.get? "B" = some "Main" ∧
    (Index.of (Site.root misplacedTree)).folders.get? "B" = some "ToDelete" ∧
    (∃ r ∈ reportRows false misplacedReport, r.name = "B" ∧
      r.cells.lookup "Status" = some (.text "Scheduled For Deletion")) ∧
    (build (Site.root misplacedTree)).scriptPaths.get? "A" = some "ToDelete" ∧
    usedFolder (Site.root misplacedTree) "A" = "ToDelete" := by
  have hopen := openDocument_of_read read_misplaced "findall"
  have hone : OneCatalogue (Site.root misplacedTree) :=
    ⟨by decide, by decide, by decide, by decide⟩
  have hcalled : Filed (Site.root misplacedTree) (misplacedScripts.get ⟨0, by decide⟩) :=
    ⟨List.get_mem _ _, by decide, by decide, by decide, by decide, by decide, by decide⟩
  have hcalling : Filed (Site.root misplacedTree) (misplacedScripts.get ⟨1, by decide⟩) :=
    ⟨List.get_mem _ _, by decide, by decide, by decide, by decide, by decide, by decide⟩
  have hunmoved :
      Unmoved (Site.root misplacedTree) (misplacedScripts.get ⟨1, by decide⟩) :=
    ⟨by decide, List.forall_mem_cons.mpr ⟨fun h => absurd h (by decide),
      List.forall_mem_singleton.mpr fun _ => List.get_mem _ ⟨0, by decide⟩⟩, by decide⟩
  have hplaced : AllPlaced (Site.root misplacedTree) := by
    intro s hs
    have hnone : references (Site.root misplacedTree) = [] := by decide
    rw [hnone] at hs
    cases hs
  obtain ⟨hpath, hfolder, -, hexists, hrow⟩ := folder_of_filed_script false hopen hone hcalled
  obtain ⟨hpath', -, hown, -⟩ := folder_of_filed_script false hopen hone hcalling
  obtain ⟨r, hr, hname⟩ := hexists hplaced
  exact ⟨hpath, hfolder.trans (by decide), ⟨r, hr, hname, (hrow r hr hname).2.2.mpr (by decide)⟩,
    hpath', hown hunmoved⟩

end DesignAudit.Script
