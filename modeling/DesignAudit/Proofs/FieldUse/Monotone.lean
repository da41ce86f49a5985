import DesignAudit.Proofs.FieldUse.Completeness
import DesignAudit.Proofs.FieldUse.Within

/-!
# More document, more uses

A document that is extended by further children of its root, none of which declares anything, declares
the same fields (`scopeAt_eq`). Each of the passes over the document finds the uses that it found
before, and perhaps more behind them (`sublist_otherUses`, `exists_prefix_usesOnLayouts`). So the report
has rows for the same fields, no count of uses gets smaller, and no field that was not called unused is
called so now (`usage_monotone`).
-/

namespace DesignAudit.FieldUse

open Markup Text Catalog Layout
open Traversal

/-- The names of the elements that declare tables, their occurrences and their fields. -/
def declaringTags : List String :=
  ["Table", "TableOccurrence", "BaseTable", "BaseTableCatalog", "FieldCatalog"]

/-- None of the nodes that are added to the children of a root declares anything. -/
def AddsNoDeclaration (n' n : Node) (added : List Node) : Prop :=
  ∀ s ∈ sitesIn [n'] [] n.children.length added, s.tag ∉ declaringTags

instance (n' n : Node) (added : List Node) : Decidable (AddsNoDeclaration n' n added) :=
  inferInstanceAs (Decidable (∀ s ∈ sitesIn [n'] [] n.children.length added,
    s.tag ∉ declaringTags))

/-! ## The same declarations -/

theorem cataloguedFields_within (outer : List Node) (table : Site) :
    cataloguedFields (table.within outer) = cataloguedFields table := by
  unfold cataloguedFields
  rw [Site.allPath_within, List.filterMap_map]
  rfl

section Declarations

variable {n' n : Node} {added : List Node} (h : n'.Extends n added)
  (hadded : AddsNoDeclaration n' n added)

include h hadded

theorem flatMap_all_eq {α : Type} {g : Site → List α}
    (hg : ∀ (outer : List Node) (s : Site), g (s.within outer) = g s) {name : String}
    (hname : name ∈ declaringTags) :
    ((Site.root n').all name).flatMap g = ((Site.root n).all name).flatMap g := by
  apply h.flatMap_all_eq fun s => (hg [n'] s).trans (hg [n] s).symm
  rintro s hs rfl
  exact hadded s hs hname

theorem declaredOccurrences_eq :
    declaredOccurrences (Site.root n') = declaredOccurrences (Site.root n) := by
  unfold declaredOccurrences
  simp only [List.filterMap_eq_flatMap_toList]
  rw [flatMap_all_eq h hadded (fun _ _ => rfl) (by decide : "Table" ∈ declaringTags),
    flatMap_all_eq h hadded (fun _ _ => rfl) (by decide : "TableOccurrence" ∈ declaringTags)]

theorem fieldsInTables_eq : fieldsInTables (Site.root n') = fieldsInTables (Site.root n) := by
  refine flatMap_all_eq h hadded ?_ (by decide : "BaseTable" ∈ declaringTags)
  intro outer t
  rw [Site.node_within]
  cases t.node.named? "name" with
  | none => rfl
  | some table =>
    dsimp only
    rw [Site.all_within, List.filterMap_map]
    rfl

theorem fieldsWithTable_eq : fieldsWithTable (Site.root n') = fieldsWithTable (Site.root n) := by
  unfold fieldsWithTable Site.allPath
  rw [List.filterMap_flatMap, List.filterMap_flatMap]
  refine flatMap_all_eq h hadded ?_ (by decide : "FieldCatalog" ∈ declaringTags)
  intro outer c
  rw [Site.down_within, List.filterMap_map]
  rfl

theorem fieldDeclarations_eq (occurrences : Register String) :
    fieldDeclarations occurrences (Site.root n') = fieldDeclarations occurrences (Site.root n) := by
  unfold fieldDeclarations
  rw [fieldsInTables_eq h hadded, fieldsWithTable_eq h hadded]
  congr 1
  unfold cataloguedTables
  rw [List.flatMap_assoc, List.flatMap_assoc]
  refine flatMap_all_eq h hadded ?_ (by decide : "BaseTableCatalog" ∈ declaringTags)
  intro outer c
  simp only [Site.all_within, List.filterMap_eq_flatMap_toList, List.flatMap_assoc,
    List.flatMap_map]
  apply List.flatMap_congr
  intro t _
  rw [Site.node_within]
  cases t.node.named? "name" with
  | none => rfl
  | some name => simp [cataloguedFields_within]

theorem fieldsAt_eq : fieldsAt (Site.root n') = fieldsAt (Site.root n) := by
  unfold fieldsAt fieldsByTable
  rw [declaredOccurrences_eq h hadded, fieldDeclarations_eq h hadded]

theorem scopeAt_eq : scopeAt (Site.root n') = scopeAt (Site.root n) := by
  unfold scopeAt
  rw [fieldsAt_eq h hadded, declaredOccurrences_eq h hadded]

end Declarations

/-! ## The uses that were found before -/

section Passes

variable {n' n : Node} {added : List Node} (h : n'.Extends n added) (s : Scope)

include h

theorem prefix_flatMap {α : Type} {g : Site → List α}
    (hg : ∀ (outer : List Node) (t : Site), g (t.within outer) = g t) (name : String) :
    ((Site.root n).all name).flatMap g <+: ((Site.root n').all name).flatMap g :=
  h.prefix_flatMap_all (fun t => (hg [n'] t).trans (hg [n] t).symm) name

theorem prefix_usesInScripts :
    usesInScripts s (Site.root n) <+: usesInScripts s (Site.root n') := by
  apply prefix_flatMap h
  intro outer script
  simp only [Site.all_within, List.flatMap_map, Site.node_within, stepUses_within]

theorem prefix_usesInFields :
    usesInFields s (Site.root n) <+: usesInFields s (Site.root n') := by
  apply prefix_flatMap h
  intro outer t
  rw [Site.node_within]
  cases t.node.named? "name" with
  | none => rfl
  | some table => simp only [Site.all_within, List.flatMap_map, fieldUses_within]

theorem prefix_usesInFunctions :
    usesInFunctions s (Site.root n) <+: usesInFunctions s (Site.root n') := by
  unfold usesInFunctions Site.allPath
  rw [List.flatMap_assoc, List.flatMap_assoc]
  apply prefix_flatMap h
  intro outer catalogue
  simp only [Site.down_within, List.flatMap_map, Site.node_within, Site.first?_within,
    textUses_within]

theorem prefix_usesInQueries :
    usesInQueries s (Site.root n) <+: usesInQueries s (Site.root n') := by
  apply h.prefix_flatMap_all
  intro c
  simp only [Site.node_within, Site.above_within, queryContext_congr h.tag h.attributes]

theorem prefix_usesInRelationships :
    usesInRelationships s (Site.root n) <+: usesInRelationships s (Site.root n') := by
  apply prefix_flatMap h
  intro outer r
  rw [Site.node_within, Site.all_within, List.flatMap_map]
  apply List.flatMap_congr
  intro pair _
  apply List.flatMap_congr
  intro i _
  rw [find?_isChildAt_within]
  cases (pair.all "Field").find? (isChildAt i) with
  | none => rfl
  | some f => rfl

theorem prefix_usesInValueLists :
    usesInValueLists s (Site.root n) <+: usesInValueLists s (Site.root n') := by
  apply prefix_flatMap h
  intro outer v
  dsimp only
  rw [Site.node_within, Site.first?_within, Site.all_within, List.flatMap_map]
  congr 1
  · cases v.first? "Field" with
    | none => rfl
    | some f => rfl
  · apply List.flatMap_congr
    intro related _
    rw [Site.first?_within, Site.first?_within]
    congr 1
    · cases related.first? "PrimaryField" with
      | none => rfl
      | some f => rfl
    · cases related.first? "DisplayField" with
      | none => rfl
      | some f => rfl

theorem prefix_usesInTexts :
    usesInTexts s (Site.root n) <+: usesInTexts s (Site.root n') := by
  unfold usesInTexts Site.allPath
  rw [List.flatMap_assoc, List.flatMap_assoc]
  apply h.prefix_flatMap_all
  intro v
  simp only [Site.down_within, List.flatMap_map, Site.node_within, Site.above_within,
    mergeContext_congr h.tag h.attributes]

theorem sublist_otherUses :
    List.Sublist (otherUses s (Site.root n)) (otherUses s (Site.root n')) := by
  unfold otherUses
  exact ((((((prefix_usesInScripts h s).sublist.append (prefix_usesInFields h s).sublist).append
    (prefix_usesInFunctions h s).sublist).append (prefix_usesInQueries h s).sublist).append
    (prefix_usesInRelationships h s).sublist).append (prefix_usesInValueLists h s).sublist).append
    (prefix_usesInTexts h s).sublist

/-- Where the layouts of the extended document are gone through to their end, so are those of the
document, with the same uses at the beginning. -/
theorem exists_prefix_usesOnLayouts {uses' : List Use}
    (huses' : usesOnLayouts s (Site.root n') = .ok uses') :
    ∃ uses, usesOnLayouts s (Site.root n) = .ok uses ∧ uses <+: uses' := by
  unfold usesOnLayouts at huses' ⊢
  obtain ⟨found, hfound, hflat⟩ := bind_eq_ok_iff.mp huses'
  rw [pure_eq_ok_iff] at hflat
  rw [h.all_eq, List.mapM_append, mapM_within [n'] (layoutUses_within s [n'])] at hfound
  obtain ⟨before, hbefore, hfound⟩ := bind_eq_ok_iff.mp hfound
  obtain ⟨more, -, hfound⟩ := bind_eq_ok_iff.mp hfound
  rw [pure_eq_ok_iff] at hfound
  rw [all_root, mapM_within [n] (layoutUses_within s [n]), hbefore]
  refine ⟨before.flatten, rfl, ?_⟩
  rw [← hflat, ← hfound, List.flatten_append]
  exact List.prefix_append _ _

end Passes

/-! ## Rows -/

/-- More uses change the standing of a field only if it was unused. -/
theorem statusOf_eq_of_le {cached : List String} {table field : String} {k k' : Nat} (hle : k ≤ k')
    (h : statusOf cached table field k ≠ .unused) :
    statusOf cached table field k' = statusOf cached table field k := by
  unfold statusOf at h ⊢
  refine ite_congr rfl (fun _ => rfl) fun hcomment => ite_congr rfl (fun _ => rfl) fun hcached =>
    ite_congr rfl (fun _ => rfl) fun hsystem => ite_congr rfl (fun _ => rfl) fun himport => ?_
  rw [if_neg hcomment, if_neg hcached, if_neg hsystem, if_neg himport] at h
  have hk : k ≠ 0 := by
    rintro rfl
    exact h rfl
  have hk' : k' ≠ 0 := by omega
  rw [if_neg hk, if_neg hk']

/-- The rows of one field, for the uses that were found and for more of them. -/
theorem row_le_of_sublist {fields : Fields} {text text' : List Char} {uses uses' : List Use}
    (hsub : List.Sublist uses uses') {r r' : Row} (hr : r ∈ rowsOf fields text uses)
    (hr' : r' ∈ rowsOf fields text' uses') (htable : r'.table = r.table)
    (hfield : r'.field = r.field) :
    r.total ≤ r'.total ∧ (r.status ≠ .unused → r'.status = r.status) := by
  obtain ⟨table, fs, -, field, -, rfl⟩ := mem_rowsOf.mp hr
  obtain ⟨table', fs', -, field', -, rfl⟩ := mem_rowsOf.mp hr'
  obtain rfl : table' = table := htable
  obtain rfl : field' = field := hfield
  have hle := (hsub.filter (·.key == fieldKey table' field')).length_le
  exact ⟨hle, statusOf_eq_of_le hle⟩

/-- **Uses are never lost by a larger document.** Let a document be extended by further children of its
root that declare no table, occurrence or field, and let no distance in it be infinite. Then the reports
on both documents have rows for the same fields, each of them once. A field has at least as many uses in
the larger document, and the standing of a field that was not called unused stays the same. -/
theorem usage_monotone {raw raw' : String} {n n' : Node} {added : List Node}
    (hread : read raw = .ok (some n)) (hread' : read raw' = .ok (some n'))
    (hextends : n'.Extends n added) (hadded : AddsNoDeclaration n' n added)
    (hbounds : NoInfiniteBounds (Site.root n')) :
    ∃ rows rows' : List Row, (audit raw).rows = rows.map Row.cells ∧
      (audit raw').rows = rows'.map Row.cells ∧
      (rows.map fun r => (r.table, r.field)).Nodup ∧
      (rows'.map fun r => (r.table, r.field)).Perm (rows.map fun r => (r.table, r.field)) ∧
      ∀ r ∈ rows, ∀ r' ∈ rows', r'.table = r.table → r'.field = r.field →
        r.total ≤ r'.total ∧ (r.status ≠ .unused → r'.status = r.status) := by
  obtain ⟨uses', huses'⟩ := exists_usesOnLayouts_eq_ok (scopeAt (Site.root n')) hbounds
  have hrows' := audit_rows_eq (openDocument_of_read hread' "findall") huses'
  rw [scopeAt_eq hextends hadded] at huses' hrows'
  rw [fieldsAt_eq hextends hadded] at hrows'
  obtain ⟨uses, huses, hprefix⟩ := exists_prefix_usesOnLayouts hextends _ huses'
  have hrows := audit_rows_eq (openDocument_of_read hread "findall") huses
  have hsub := hprefix.sublist.append
    (sublist_otherUses hextends (scopeAt (Site.root n)))
  have hpairs : ∀ (text : List Char) (found : List Use),
      ((arranged (rowsOf (fieldsAt (Site.root n)) text found)).map
        fun r => (r.table, r.field)).Perm (fieldsAt (Site.root n)).pairs :=
    fun text found => ((arranged_perm _).map _).trans (rowsOf_pairs_perm _ text found)
  refine ⟨_, _, hrows, hrows', ?_, (hpairs _ _).trans (hpairs _ _).symm, ?_⟩
  · exact (hpairs _ _).nodup_iff.mpr (nodup_pairs (distinct_fieldsByTable _ _))
  · intro r hr r' hr'
    exact row_le_of_sublist hsub (mem_arranged.mp hr) (mem_arranged.mp hr')

/-- A report with a table of two fields, one of which is set by a script. -/
def scriptedReport : String :=
  "<F><BaseTable name='T'><Field name='f'/><Field name='g'/></BaseTable><Script name='S'>" ++
  "<Step name='Set Field'><Field name='f' table='T'/></Step></Script></F>"

/-- The same report with a layout on which the other field stands. -/
def scriptedReportWithLayout : String :=
  "<F><BaseTable name='T'><Field name='f'/><Field name='g'/></BaseTable><Script name='S'>" ++
  "<Step name='Set Field'><Field name='f' table='T'/></Step></Script><Layout name='L'>" ++
  "<Object type='Field'><Bounds top='1' left='2'/><Field name='g' table='T'/></Object></Layout></F>"

def scriptedTree : Node :=
  plain "F" []
    [plain "BaseTable" [("name", "T")]
      [plain "Field" [("name", "f")] [], plain "Field" [("name", "g")] []],
     plain "Script" [("name", "S")]
      [plain "Step" [("name", "Set Field")]
        [plain "Field" [("name", "f"), ("table", "T")] []]]]

/-- The layout of `scriptedReportWithLayout`. -/
def addedLayout : Node :=
  plain "Layout" [("name", "L")]
    [plain "Object" [("type", "Field")]
      [plain "Bounds" [("top", "1"), ("left", "2")] [],
       plain "Field" [("name", "g"), ("table", "T")] []]]

def scriptedTreeWithLayout : Node := plain "F" [] (scriptedTree.children ++ [addedLayout])

set_option maxRecDepth 20000 in
theorem read_scripted : read scriptedReport = .ok (some scriptedTree) :=
  (read_eq_of_toList (toList_two _ _) (by decide) (by rfl) (by rfl)).trans (by rfl)

set_option maxRecDepth 20000 in
theorem read_scriptedWithLayout :
    read scriptedReportWithLayout = .ok (some scriptedTreeWithLayout) :=
  (read_eq_of_toList (toList_three _ _ _) (by decide) (by rfl) (by rfl)).trans (by rfl)

/-- The layout takes no use away from the fields of `scriptedReport`. -/
theorem scripted_usage_monotone :
    scriptedTreeWithLayout.Extends scriptedTree [addedLayout] ∧
    AddsNoDeclaration scriptedTreeWithLayout scriptedTree [addedLayout] ∧
    NoInfiniteBounds (Site.root scriptedTreeWithLayout) ∧
    ∃ rows rows' : List Row, (audit scriptedReport).rows = rows.map Row.cells ∧
      (audit scriptedReportWithLayout).rows = rows'.map Row.cells ∧
      ∀ r ∈ rows, ∀ r' ∈ rows', r'.table = r.table → r'.field = r.field →
        r.total ≤ r'.total ∧ (r.status ≠ .unused → r'.status = r.status) := by
  have hextends : scriptedTreeWithLayout.Extends scriptedTree [addedLayout] := ⟨rfl, rfl, rfl⟩
  have hadded : AddsNoDeclaration scriptedTreeWithLayout scriptedTree [addedLayout] := by
    decide +kernel
  have hbounds : NoInfiniteBounds (Site.root scriptedTreeWithLayout) := by decide +kernel
  obtain ⟨rows, rows', hrows, hrows', -, -, hle⟩ :=
    usage_monotone read_scripted read_scriptedWithLayout hextends hadded hbounds
  exact ⟨hextends, hadded, hbounds, rows, rows', hrows, hrows', hle⟩

end DesignAudit.FieldUse
