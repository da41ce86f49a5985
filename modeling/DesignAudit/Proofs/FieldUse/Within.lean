import DesignAudit.FieldUse.Audit
import DesignAudit.Proofs.Markup.Within
import DesignAudit.Proofs.Traversal

/-!
# Uses of fields follow from what lies below

What a layout, a script, a table or another element uses follows from the element and from what lies
below it. So it does not change when further nodes are put around the element: there is one statement
of this kind for each function that collects uses. Only the uses in queries and by merge marks are told
with the elements around them; of these the names and attributes count (`queryContext_congr`,
`mergeContext_congr`).
-/

namespace DesignAudit.FieldUse

open Markup Layout

variable (s : Scope) (outer : List Node)

/-! ## Parts of elements -/

@[simp]
theorem textUses_within (table : Option String) (context : String) (c : Option Site) :
    textUses s table context (c.map (Site.within outer)) = textUses s table context c := by
  unfold textUses
  rw [Option.bind_map]
  rfl

@[simp]
theorem parameterUses_within (place : Place) (context : String) (p : Site) :
    parameterUses s place context (p.within outer) = parameterUses s place context p := rfl

@[simp]
theorem mentionUses_within (place : Place) (context : String) (c : Site) :
    mentionUses s place context (c.within outer) = mentionUses s place context c := rfl

@[simp]
theorem fieldChunks_within (display : Site) :
    fieldChunks (display.within outer) = (fieldChunks display).map (Site.within outer) :=
  Site.allWith_within outer display _ _ _

@[simp]
theorem objectsOf_within (layout : Site) (type : String) :
    objectsOf (layout.within outer) type = (objectsOf layout type).map (Site.within outer) :=
  Site.allWith_within outer layout _ _ _

/-- Going on to the first element of a name. -/
@[simp]
theorem bind_first?_within (o : Option Site) (name : String) :
    ((o.map (Site.within outer)).bind (·.first? name)) =
      (o.bind (·.first? name)).map (Site.within outer) := by
  cases o with
  | none => rfl
  | some t => exact Site.first?_within outer t name

@[simp]
theorem positionText_within (object : Site) :
    positionText (object.within outer) = positionText object := by
  unfold positionText
  rw [Site.first?_within]
  cases object.first? "Bounds" with
  | none => rfl
  | some b => rfl

/-! ## Objects of a layout -/

section Objects

variable (layout : String) (object : Site)

@[simp]
theorem placeholderObjectUses_within :
    placeholderObjectUses s layout (object.within outer) =
      placeholderObjectUses s layout object := by
  unfold placeholderObjectUses
  rw [Site.first?_within, positionText_within]
  cases object.first? "PlaceholderText" with
  | none => rfl
  | some p =>
    simp only [Option.map_some, Site.first?_within, Option.bind_map]
    cases p.first? "DisplayCalculation" with
    | none => rfl
    | some d =>
      simp only [Option.map_some, fieldChunks_within, List.mapM_map, Function.comp_def,
        Site.first?_within, Option.map_map, Site.node_within]

@[simp]
theorem fieldObjectUses_within :
    fieldObjectUses s layout (object.within outer) = fieldObjectUses s layout object := by
  unfold fieldObjectUses
  rw [Site.first?_within, positionText_within, placeholderObjectUses_within]
  cases object.first? "Field" with
  | none => rfl
  | some f => rfl

@[simp]
theorem portalFieldUses_within (position table : String) :
    portalFieldUses s layout position table (object.within outer) =
      portalFieldUses s layout position table object := by
  unfold portalFieldUses
  rw [Site.first?_within, Site.first?_within]
  cases object.first? "Field" with
  | none => rfl
  | some f =>
    cases object.first? "Bounds" with
    | none => rfl
    | some b => rfl

@[simp]
theorem portalUses_within :
    portalUses s layout (object.within outer) = portalUses s layout object := by
  unfold portalUses
  rw [Site.first?_within, positionText_within, objectsOf_within]
  cases object.first? "Portal" with
  | none => rfl
  | some portal =>
    simp only [Option.map_some, Site.first?_within, bind_first?_within, textUses_within,
      List.mapM_map, Function.comp_def, portalFieldUses_within, Site.node_within]

@[simp]
theorem webViewerUses_within :
    webViewerUses s layout (object.within outer) = webViewerUses s layout object := by
  unfold webViewerUses
  rw [Site.first?_within, positionText_within]
  cases object.first? "ExternalObj" with
  | none => rfl
  | some e =>
    cases hview : e.node.attr "typeID" == "WEBV" with
    | false =>
      simp only [Option.map_some, Option.filter_some, Site.node_within, hview]
      rfl
    | true =>
      simp only [Option.map_some, Option.filter_some, Site.node_within, hview, if_true,
        Site.firstPath?_within, Site.all_within, List.flatMap_map, Option.toList_map,
        mentionUses_within]

@[simp]
theorem buttonUses_within :
    buttonUses s layout (object.within outer) = buttonUses s layout object := by
  unfold buttonUses
  simp only [positionText_within, Site.node_within, Site.all_within, List.filter_map,
    List.flatMap_map, Function.comp_def, parameterUses_within, mentionUses_within]

@[simp]
theorem textObjectUses_within :
    textObjectUses s layout (object.within outer) = textObjectUses s layout object := by
  unfold textObjectUses
  rw [Site.firstPath?_within]
  cases object.firstPath? "TextObj" ["FieldList"] with
  | none =>
    simp only [positionText_within, Option.map_none, Site.allPath_within, List.flatMap_map,
      Site.node_within]
  | some l =>
    simp only [positionText_within, Option.map_some, Site.allPath_within, Site.all_within,
      List.flatMap_map, Site.node_within]

@[simp]
theorem conditionUses_within :
    conditionUses s layout (object.within outer) = conditionUses s layout object := by
  unfold conditionUses
  rw [Site.first?_within, positionText_within]
  cases object.first? "ConditionalFormatting" with
  | none => rfl
  | some c =>
    simp only [Option.map_some, Site.all_within, List.flatMap_map, Site.firstPath?_within,
      textUses_within, Site.node_within]

@[simp]
theorem hideUses_within : hideUses s layout (object.within outer) = hideUses s layout object := by
  unfold hideUses
  rw [Site.first?_within, positionText_within]
  cases object.first? "HideCondition" with
  | none => rfl
  | some h =>
    simp only [Option.map_some, Site.first?_within, textUses_within, Site.node_within]

@[simp]
theorem panelUses_within (site : Site) (type part unnamed label : String) :
    panelUses s (site.within outer) layout type part unnamed label (object.within outer) =
      panelUses s site layout type part unnamed label object := by
  unfold panelUses
  simp only [positionText_within, objectsOf_within, List.flatMap_map, Site.node_within,
    Site.first?_within, bind_first?_within, textUses_within]

@[simp]
theorem barUses_within : barUses s layout (object.within outer) = barUses s layout object := by
  unfold barUses
  rw [Site.first?_within, positionText_within]
  cases object.first? "ButtonBarObj" with
  | none => rfl
  | some b =>
    simp only [Option.map_some, Site.all_within, List.flatMap_map, Site.first?_within,
      textUses_within]

@[simp]
theorem popoverUses_within :
    popoverUses s layout (object.within outer) = popoverUses s layout object := by
  unfold popoverUses
  simp only [positionText_within, Site.first?_within, bind_first?_within, textUses_within,
    Site.node_within]

@[simp]
theorem chartUses_within :
    chartUses s layout (object.within outer) = chartUses s layout object := by
  unfold chartUses
  rw [Site.firstWith?_within, positionText_within]
  cases object.firstWith? "ExternalObj" "typeID" "CHRT" with
  | none => rfl
  | some chart =>
    simp only [Option.map_some, Site.allBelow_within, Site.all_within, List.flatMap_map,
      Site.node_within]
    rfl

end Objects

/-- Going through objects gives the same whatever is around them. -/
theorem mapM_within {f g : Site → Except Fault (List Use)}
    (hf : ∀ object : Site, f (object.within outer) = g object) (objects : List Site) :
    (objects.map (Site.within outer)).mapM f = objects.mapM g := by
  rw [List.mapM_map]
  congr 1
  funext object
  exact hf object

/-- What the objects of a kind use is the same whatever is around them. -/
theorem collect_within {f g : Site → Except Fault (List Use)}
    (hf : ∀ object : Site, f (object.within outer) = g object) (objects : List Site) :
    ObjectKind.collect (objects.map (Site.within outer), f) = ObjectKind.collect (objects, g) := by
  rw [ObjectKind.collect, ObjectKind.collect, mapM_within outer hf]

/-- A layout has the same uses whatever is around it. -/
theorem layoutUses_within (layout : Site) :
    layoutUses s (layout.within outer) = layoutUses s layout := by
  have hname : layoutName (layout.within outer) = layoutName layout := by
    rw [layoutName, Site.node_within, layoutName]
  unfold layoutUses objectKinds fieldKinds controlKinds furtherKinds
  simp only [hname, Site.all_within, objectsOf_within, List.cons_append, List.nil_append,
    List.mapM_cons, collect_within outer (fieldObjectUses_within s outer _),
    collect_within outer (portalUses_within s outer _),
    collect_within outer (webViewerUses_within s outer _),
    collect_within outer (buttonUses_within s outer _),
    collect_within outer (textObjectUses_within s outer _),
    collect_within outer (conditionUses_within s outer _),
    collect_within outer (hideUses_within s outer _),
    collect_within outer fun control => panelUses_within s outer _ control layout _ _ _ _,
    collect_within outer (barUses_within s outer _),
    collect_within outer (popoverUses_within s outer _),
    collect_within outer (chartUses_within s outer _)]

/-! ## Scripts, fields and functions -/

@[simp]
theorem stepUses_within (script : String) (step : Site) :
    stepUses s script (step.within outer) = stepUses s script step := by
  unfold stepUses
  rw [Site.first?_within]
  cases step.first? "Field" with
  | none =>
    simp only [Option.map_none, Site.node_within, Site.all_within, Site.allPath_within,
      List.flatMap_map, parameterUses_within]
    rfl
  | some f =>
    simp only [Option.map_some, Site.node_within, Site.all_within, Site.allPath_within,
      List.flatMap_map, parameterUses_within]
    rfl

@[simp]
theorem ownCalculationUses_within (label table field : String) (c : Option Site) :
    ownCalculationUses s label table field (c.map (Site.within outer)) =
      ownCalculationUses s label table field c := by
  unfold ownCalculationUses
  rw [Option.bind_map]
  rfl

@[simp]
theorem displayUses_within (table field : String) (display : Option Site) :
    displayUses s table field (display.map (Site.within outer)) =
      displayUses s table field display := by
  unfold displayUses
  cases display with
  | none => rfl
  | some d =>
    simp only [Option.map_some, fieldChunks_within, List.flatMap_map, Site.childrenNamed_within,
      List.head?_map]
    congr 1
    apply List.flatMap_congr
    intro chunk _
    cases (chunk.childrenNamed "Field").head? with
    | none => rfl
    | some f => rfl

@[simp]
theorem fieldUses_within (table : String) (f : Site) :
    fieldUses s table (f.within outer) = fieldUses s table f := by
  unfold fieldUses
  simp only [Site.node_within, Site.first?_within, Site.firstPath?_within,
    ownCalculationUses_within, displayUses_within]

/-! ## Relationships -/

theorem isChildAt_within {f : Site} (h : f.above ≠ []) (i : Nat) :
    isChildAt i (f.within outer) = isChildAt i f := by
  unfold isChildAt
  rw [Site.up?_within outer f h]
  cases f.up? with
  | none => rfl
  | some p =>
    simp only [Option.map_some, Site.tag_within, Site.childrenNamed_within, List.getElem?_map,
      Option.map_map, Function.comp_def, Site.address_within]

/-- The field at a position among the fields of a pair. -/
theorem find?_isChildAt_within (pair : Site) (i : Nat) :
    ((pair.within outer).all "Field").find? (isChildAt i) =
      ((pair.all "Field").find? (isChildAt i)).map (Site.within outer) := by
  rw [Site.all_within, List.find?_map, ← List.head?_filter, ← List.head?_filter]
  congr 2
  apply List.filter_congr
  intro f hf
  exact isChildAt_within outer (Site.above_ne_nil_of_mem_below (Site.mem_all.mp hf).1) i

/-! ## Contexts -/

section Contexts

variable {n' n : Node} (htag : n'.tag = n.tag) (hattributes : n'.attributes = n.attributes)

theorem attrD_congr (h : n'.attributes = n.attributes) (key default : String) :
    n'.attrD key default = n.attrD key default := by
  unfold Node.attrD Node.attr?
  rw [h]

/-- The nearest element of a name is the same, or it is the outermost one in both cases. -/
theorem nearest?_cases (h : n'.tag = n.tag) (above : List Node) (tag : String) :
    nearest? (above ++ [n']) tag = nearest? (above ++ [n]) tag ∨
      nearest? (above ++ [n']) tag = some n' ∧ nearest? (above ++ [n]) tag = some n := by
  unfold nearest?
  rw [List.take_append, List.take_append, List.find?_append, List.find?_append]
  cases (above.take 5).find? (·.tag == tag) with
  | some found => exact .inl rfl
  | none =>
    cases 5 - above.length with
    | zero => exact .inl rfl
    | succ k =>
      by_cases hn : n.tag = tag
      · exact .inr (by simp [h, hn])
      · exact .inl (by simp [h, hn])

include htag hattributes

/-- Where a query stands is told by names and attributes. -/
theorem queryContext_congr (k : Nat) (above : List Node) :
    queryContext k (above ++ [n']) = queryContext k (above ++ [n]) := by
  induction k generalizing above with
  | zero => rfl
  | succ k ih =>
    cases above with
    | nil =>
      cases n'
      cases n
      cases htag
      cases hattributes
      rfl
    | cons a above =>
      -- the element itself is the same; only what is looked up around it may be the outermost one
      rw [List.cons_append, List.cons_append, queryContext, queryContext]
      refine ite_congr rfl (fun _ => rfl) fun _ => ite_congr rfl (fun _ => ?_) fun _ =>
        ite_congr rfl (fun _ => rfl) fun _ => ite_congr rfl (fun _ => ?_) fun _ =>
        ite_congr rfl (fun _ => ?_) fun _ => ih above
      · obtain h | ⟨h', h⟩ := nearest?_cases htag above "Script"
        · rw [h]
        · simp only [h', h, attrD_congr hattributes]
      · obtain h | ⟨h', h⟩ := nearest?_cases htag above "BaseTable"
        · rw [h]
        · simp only [h', h, attrD_congr hattributes]
      · obtain h | ⟨h', h⟩ := nearest?_cases htag above "Layout"
        · rw [h]
        · simp only [h', h, attrD_congr hattributes]

/-- Where a merge field stands is told by names and attributes. -/
theorem mergeContext_congr (k : Nat) (above : List Node) :
    mergeContext k (above ++ [n']) = mergeContext k (above ++ [n]) := by
  induction k generalizing above with
  | zero => rfl
  | succ k ih =>
    cases above with
    | nil =>
      cases n'
      cases n
      cases htag
      cases hattributes
      rfl
    | cons a above =>
      rw [List.cons_append, List.cons_append, mergeContext, mergeContext]
      refine ite_congr rfl (fun _ => ?_) fun _ => ih above
      obtain h | ⟨h', h⟩ := nearest?_cases htag above "Layout"
      · rw [h]
      · simp only [h', h, attrD_congr hattributes]

end Contexts

end DesignAudit.FieldUse
