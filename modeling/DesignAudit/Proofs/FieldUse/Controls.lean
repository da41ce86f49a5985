import DesignAudit.Proofs.FieldUse.Pairs
import DesignAudit.Proofs.FieldUse.Report
import DesignAudit.Proofs.Markup.Below
import DesignAudit.Proofs.Markup.Reader
import DesignAudit.Proofs.Traversal

/-!
# Fields in the calculations of buttons and web viewers

The calculations of scripts are searched for pairs of a table and a field, and a table may be named by
any of its occurrences. So a field counts as used if a step names it with an occurrence of its table
(`exists_use_of_inStep`).

In the calculations of buttons and web viewers no occurrence is looked up. A field is found there only
if the joined name of the field and its base table is a part of the text, or each of the two with a dot
is (`Mentions`). `reference_in_control_counted_iff` says what follows for a field that such a
calculation names with an occurrence of its table: it is counted only if something else uses it.
-/

namespace DesignAudit.FieldUse

open Markup Text Text.Pattern Traversal
open Catalog

/-! ## What a layout uses -/

/-- A use that an object of a list makes. -/
def UsedBy (objects : List Site) (f : Site → Except Fault (List Use)) (u : Use) : Prop :=
  ∃ object ∈ objects, ∃ us, f object = .ok us ∧ u ∈ us

variable {us uses : List Use} {place : Place} {layout object : Site} {field t table : String}

/-- What objects use together is what each of them uses. -/
theorem mem_collected_iff {objects : List Site} {f : Site → Except Fault (List Use)}
    (h : (do return (← objects.mapM f).flatten) = Except.ok us) {u : Use} :
    u ∈ us ↔ UsedBy objects f u := by
  obtain ⟨uss, huss, h⟩ := bind_eq_ok_iff.mp h
  rw [← pure_eq_ok_iff.mp h, List.mem_flatten, UsedBy]
  simp only [mem_of_mapM_eq_ok huss]
  grind

theorem exists_of_collected {objects : List Site} {f : Site → Except Fault (List Use)}
    (h : (do return (← objects.mapM f).flatten) = Except.ok us) :
    ∀ object ∈ objects, ∃ vs, f object = .ok vs := by
  obtain ⟨uss, huss, -⟩ := bind_eq_ok_iff.mp h
  exact exists_mapM_eq_ok_iff.mp ⟨uss, huss⟩

/-- The uses on a layout are those that its objects make, kind by kind. -/
theorem layoutUses_spec {s : Scope} (h : layoutUses s layout = .ok us) :
    (∀ kind ∈ objectKinds s layout, ∀ object ∈ kind.1, ∃ vs, kind.2 object = .ok vs) ∧
    ∀ u, u ∈ us ↔ ∃ kind ∈ objectKinds s layout, UsedBy kind.1 kind.2 u := by
  obtain ⟨uss, huss, h⟩ := bind_eq_ok_iff.mp h
  have hkinds := exists_mapM_eq_ok_iff.mp ⟨uss, huss⟩
  refine ⟨fun kind hkind => ?_, fun u => ?_⟩
  · obtain ⟨vs, hvs⟩ := hkinds kind hkind
    exact exists_of_collected hvs
  · rw [← pure_eq_ok_iff.mp h, List.mem_flatten]
    simp only [mem_of_mapM_eq_ok huss]
    constructor
    · rintro ⟨vs, ⟨kind, hkind, hvs⟩, hu⟩
      exact ⟨kind, hkind, (mem_collected_iff hvs).mp hu⟩
    · rintro ⟨kind, hkind, hu⟩
      obtain ⟨vs, hvs⟩ := hkinds kind hkind
      exact ⟨vs, ⟨kind, hkind, hvs⟩, (mem_collected_iff hvs).mpr hu⟩

theorem viewers_mem (s : Scope) (layout : Site) :
    (objectsOf layout "ExternalObject", webViewerUses s (layoutName layout)) ∈
      objectKinds s layout := by
  simp [objectKinds, controlKinds]

theorem buttons_mem (s : Scope) (layout : Site) :
    (objectsOf layout "Button", buttonUses s (layoutName layout)) ∈ objectKinds s layout := by
  simp [objectKinds, controlKinds]

/-- The kinds of objects are web viewers, buttons, and those that are no controls. -/
theorem mem_objectKinds_iff {s : Scope} {kind : ObjectKind} :
    kind ∈ objectKinds s layout ↔
      kind = (objectsOf layout "ExternalObject", webViewerUses s (layoutName layout)) ∨
      kind = (objectsOf layout "Button", buttonUses s (layoutName layout)) ∨
      kind ∈ fieldKinds s layout ++ furtherKinds s layout := by
  simp only [objectKinds, controlKinds, List.mem_append, List.mem_cons, List.not_mem_nil, or_false]
  grind

/-! ## What buttons and web viewers use -/

variable {s : Scope} {root : Site} {key : String}

/-- A text has the joined name of a field and its table, or each of the two with a dot. -/
def Mentions (s : Scope) (t key : String) : Prop :=
  ∃ table field, (table, field) ∈ s.pairs ∧ fieldKey table field = key ∧
    (has key t = true ∨ has (table ++ ".") t = true ∧ has ("." ++ field) t = true)

theorem mem_mentionedKeys_iff : key ∈ mentionedKeys s t ↔ Mentions s t key := by
  simp only [mentionedKeys, List.mem_filterMap, Option.ite_none_right_eq_some, Bool.or_eq_true,
    Bool.and_eq_true, Option.some.injEq, Prod.exists, Mentions]
  constructor
  · rintro ⟨table, field, hpair, hhas, rfl⟩
    exact ⟨table, field, hpair, rfl, hhas⟩
  · rintro ⟨table, field, hpair, rfl, hhas⟩
    exact ⟨table, field, hpair, hhas, rfl⟩

/-- One of several calculations mentions a field. -/
def MentionedIn (s : Scope) (calculations : List Site) (key : String) : Prop :=
  ∃ c ∈ calculations, ∃ t, c.node.written? = some t ∧ Mentions s t key

theorem exists_mentionUses_iff {context : String} {c : Site} :
    (∃ u ∈ mentionUses s place context c, u.key = key) ↔
      ∃ t, c.node.written? = some t ∧ Mentions s t key := by
  rw [mentionUses]
  cases c.node.written? with
  | none => simp
  | some t => simp [← mem_mentionedKeys_iff]

theorem exists_flatMap_mentionUses_iff {context : String} {cs : List Site} :
    (∃ u ∈ cs.flatMap (mentionUses s place context), u.key = key) ↔ MentionedIn s cs key := by
  simp only [List.mem_flatMap, MentionedIn]
  constructor
  · rintro ⟨u, ⟨c, hc, hu⟩, hkey⟩
    exact ⟨c, hc, exists_mentionUses_iff.mp ⟨u, hu, hkey⟩⟩
  · rintro ⟨c, hc, hmentions⟩
    obtain ⟨u, hu, hkey⟩ := exists_mentionUses_iff.mpr hmentions
    exact ⟨u, ⟨c, hc, hu⟩, hkey⟩

/-- What a parameter uses does not depend on how its place is told. -/
theorem exists_parameterUses_iff (context context' : String) {parameter : Site} :
    (∃ u ∈ parameterUses s place context parameter, u.key = key) ↔
      ∃ u ∈ parameterUses s place context' parameter, u.key = key := by
  simp only [parameterUses]
  repeat' split
  all_goals simp

/-- A button gives a field as a parameter to one of its scripts. -/
def GivesAsParameter (s : Scope) (button : Site) (key : String) : Prop :=
  ∃ script ∈ button.all "Script", script.node.attr "name" ≠ "" ∧
    ∃ parameter ∈ script.all "Parameter", ∃ u ∈ parameterUses s .layout "" parameter, u.key = key

theorem exists_buttonUses_iff {layout : String} {button : Site}
    (h : buttonUses s layout button = .ok us) :
    (∃ u ∈ us, u.key = key) ↔
      GivesAsParameter s button key ∨ MentionedIn s (button.all "Calculation") key := by
  obtain ⟨position, -, h⟩ := bind_eq_ok_iff.mp h
  rw [← pure_eq_ok_iff.mp h]
  simp only [List.mem_append, or_and_right, exists_or]
  refine or_congr ?_ ?_
  · simp only [List.mem_flatMap, List.mem_filter, bne_iff_ne, GivesAsParameter]
    constructor
    · rintro ⟨u, ⟨script, ⟨hscript, hnamed⟩, parameter, hparameter, hu⟩, hkey⟩
      exact ⟨script, hscript, hnamed, parameter, hparameter,
        (exists_parameterUses_iff _ "").mp ⟨u, hu, hkey⟩⟩
    · rintro ⟨script, hscript, hnamed, parameter, hparameter, huse⟩
      obtain ⟨u, hu, hkey⟩ := (exists_parameterUses_iff "" _).mp huse
      exact ⟨u, ⟨script, ⟨hscript, hnamed⟩, parameter, hparameter, hu⟩, hkey⟩
  · exact exists_flatMap_mentionUses_iff

/-- The element that makes an object a web viewer. -/
def viewer? (object : Site) : Option Site :=
  (object.first? "ExternalObj").filter (·.node.attr "typeID" == "WEBV")

/-- The address of a web viewer is one of the calculations below it. -/
theorem url_mem {object viewer url : Site} (hviewer : viewer? object = some viewer)
    (hurl : viewer.firstPath? "WebObj" ["URLCalc", "Calculation"] = some url) :
    url ∈ object.all "Calculation" := by
  obtain ⟨w, hw, hdown⟩ := List.mem_flatMap.mp (List.mem_of_head? hurl)
  obtain ⟨hfirst, -⟩ := Option.filter_eq_some_iff.mp hviewer
  exact Site.mem_all_trans (Site.mem_all.mpr (Site.mem_below_of_first? hfirst))
    (Site.mem_all_trans hw (Site.mem_all_of_mem_down ["URLCalc"] hdown))

theorem exists_webViewerUses_iff {layout : String} (h : webViewerUses s layout object = .ok us) :
    (∃ u ∈ us, u.key = key) ↔
      (∃ viewer, viewer? object = some viewer) ∧
        MentionedIn s (object.all "Calculation") key := by
  rw [webViewerUses, ← viewer?] at h
  cases hviewer : viewer? object with
  | none =>
    simp only [hviewer] at h
    rw [← pure_eq_ok_iff.mp h]
    simp
  | some viewer =>
    simp only [hviewer] at h
    obtain ⟨position, -, h⟩ := bind_eq_ok_iff.mp h
    rw [← pure_eq_ok_iff.mp h]
    simp only [List.mem_append, or_and_right, exists_or, exists_flatMap_mentionUses_iff]
    refine ⟨?_, fun h => .inl h.2⟩
    rintro (hcalculation | ⟨url, hurl, hmentions⟩)
    · exact ⟨⟨viewer, rfl⟩, hcalculation⟩
    · exact ⟨⟨viewer, rfl⟩, url, url_mem hviewer (Option.mem_toList.mp hurl), hmentions⟩

/-- The calculation of a button or a web viewer on a layout of the document. -/
inductive InControl (root : Site) (t : String) : Prop where
  | button {layout object c : Site} (hlayout : layout ∈ root.all "Layout")
      (hobject : object ∈ objectsOf layout "Button") (hc : c ∈ object.all "Calculation")
      (ht : c.node.written? = some t)
  | webViewer {layout object viewer c : Site} (hlayout : layout ∈ root.all "Layout")
      (hobject : object ∈ objectsOf layout "ExternalObject")
      (hviewer : viewer? object = some viewer) (hc : c ∈ object.all "Calculation")
      (ht : c.node.written? = some t)

/-- A field is used otherwise than by a calculation of a button or a web viewer. -/
inductive UsedApart (s : Scope) (root : Site) (key : String) : Prop where
  | object {layout : Site} {kind : ObjectKind} {u : Use} (hlayout : layout ∈ root.all "Layout")
      (hkind : kind ∈ fieldKinds s layout ++ furtherKinds s layout)
      (hu : UsedBy kind.1 kind.2 u) (hkey : u.key = key)
  | parameter {layout button : Site} (hlayout : layout ∈ root.all "Layout")
      (hbutton : button ∈ objectsOf layout "Button") (hgives : GivesAsParameter s button key)
  | elsewhere {u : Use} (hu : u ∈ otherUses s root) (hkey : u.key = key)

/-- What is used on a layout is used on the layouts of the document. -/
theorem exists_on_layouts (h : usesOnLayouts s root = .ok uses)
    (hlayout : layout ∈ root.all "Layout")
    (huse : ∀ us, layoutUses s layout = .ok us → ∃ u ∈ us, u.key = key) :
    ∃ u ∈ uses, u.key = key := by
  obtain ⟨us, hus⟩ := exists_of_collected h layout hlayout
  obtain ⟨u, hu, hkey⟩ := huse us hus
  exact ⟨u, (mem_collected_iff h).mpr ⟨layout, hlayout, us, hus, hu⟩, hkey⟩

theorem exists_of_button {layout button : Site} (hus : layoutUses s layout = .ok us)
    (hbutton : button ∈ objectsOf layout "Button")
    (h : GivesAsParameter s button key ∨ MentionedIn s (button.all "Calculation") key) :
    ∃ u ∈ us, u.key = key := by
  obtain ⟨hkinds, hmem⟩ := layoutUses_spec hus
  obtain ⟨vs, hvs⟩ := hkinds _ (buttons_mem s layout) button hbutton
  obtain ⟨u, hu, hkey⟩ := (exists_buttonUses_iff hvs).mpr h
  exact ⟨u, (hmem u).mpr ⟨_, buttons_mem s layout, button, hbutton, vs, hvs, hu⟩, hkey⟩

theorem exists_of_webViewer {layout object viewer : Site}
    (hus : layoutUses s layout = .ok us) (hobject : object ∈ objectsOf layout "ExternalObject")
    (hviewer : viewer? object = some viewer)
    (h : MentionedIn s (object.all "Calculation") key) : ∃ u ∈ us, u.key = key := by
  obtain ⟨hkinds, hmem⟩ := layoutUses_spec hus
  obtain ⟨vs, hvs⟩ := hkinds _ (viewers_mem s layout) object hobject
  obtain ⟨u, hu, hkey⟩ := (exists_webViewerUses_iff hvs).mpr ⟨⟨viewer, hviewer⟩, h⟩
  exact ⟨u, (hmem u).mpr ⟨_, viewers_mem s layout, object, hobject, vs, hvs, hu⟩, hkey⟩

/-- The calculations of buttons and web viewers use the fields that they mention. -/
theorem exists_use_of_mentions (h : usesOnLayouts s root = .ok uses) (ht : InControl root t)
    (hmentions : Mentions s t key) : ∃ u ∈ uses, u.key = key := by
  cases ht with
  | button hlayout hobject hc ht =>
    exact exists_on_layouts h hlayout fun us hus =>
      exists_of_button hus hobject (.inr ⟨_, hc, _, ht, hmentions⟩)
  | webViewer hlayout hobject hviewer hc ht =>
    exact exists_on_layouts h hlayout fun us hus =>
      exists_of_webViewer hus hobject hviewer ⟨_, hc, _, ht, hmentions⟩

theorem exists_use_of_usedApart (h : usesOnLayouts s root = .ok uses)
    (hused : UsedApart s root key) : ∃ u ∈ uses ++ otherUses s root, u.key = key := by
  have hon : (∃ u ∈ uses, u.key = key) → ∃ u ∈ uses ++ otherUses s root, u.key = key :=
    fun ⟨u, hu, hkey⟩ => ⟨u, List.mem_append_left _ hu, hkey⟩
  cases hused with
  | object hlayout hkind hu hkey =>
    exact hon (exists_on_layouts h hlayout fun us hus =>
      ⟨_, ((layoutUses_spec hus).2 _).mpr ⟨_, mem_objectKinds_iff.mpr (.inr (.inr hkind)), hu⟩,
        hkey⟩)
  | parameter hlayout hbutton hgives =>
    exact hon (exists_on_layouts h hlayout fun us hus => exists_of_button hus hbutton (.inl hgives))
  | elsewhere hu hkey => exact ⟨_, List.mem_append_right _ hu, hkey⟩

/-- What is used on a layout is mentioned by the calculation of a button or a web viewer, or used
otherwise. -/
theorem mentioned_or_usedApart_of_mem (h : usesOnLayouts s root = .ok uses)
    {u : Use} (hu : u ∈ uses) :
    (∃ t, InControl root t ∧ Mentions s t u.key) ∨ UsedApart s root u.key := by
  obtain ⟨layout, hlayout, us, hus, hu⟩ := (mem_collected_iff h).mp hu
  obtain ⟨kind, hkind, hu⟩ := ((layoutUses_spec hus).2 u).mp hu
  rcases mem_objectKinds_iff.mp hkind with rfl | rfl | hkind
  · obtain ⟨object, hobject, vs, hvs, hu⟩ := hu
    obtain ⟨⟨viewer, hviewer⟩, c, hc, t, ht, hmentions⟩ :=
      (exists_webViewerUses_iff hvs).mp ⟨u, hu, rfl⟩
    exact .inl ⟨t, .webViewer hlayout hobject hviewer hc ht, hmentions⟩
  · obtain ⟨object, hobject, vs, hvs, hu⟩ := hu
    obtain hgives | ⟨c, hc, t, ht, hmentions⟩ := (exists_buttonUses_iff hvs).mp ⟨u, hu, rfl⟩
    · exact .inr (.parameter hlayout hobject hgives)
    · exact .inl ⟨t, .button hlayout hobject hc ht, hmentions⟩
  · exact .inr (.object hlayout hkind hu rfl)

/-- A field is counted exactly if the calculation of a button or a web viewer mentions it, or it is
used otherwise. -/
theorem counted_iff_mentioned_or_apart {raw table field : String}
    (hopen : openDocument "findall" raw = .ok root)
    (hlayouts : usesOnLayouts (scopeAt root) root = .ok uses)
    (hfield : (fieldsAt root).hasField table field = true) :
    Counted raw table field ↔
      (∃ t, InControl root t ∧ Mentions (scopeAt root) t (fieldKey table field)) ∨
        UsedApart (scopeAt root) root (fieldKey table field) := by
  rw [counted_iff hopen hlayouts hfield]
  constructor
  · rintro ⟨u, hu, hkey⟩
    rw [← hkey]
    rcases List.mem_append.mp hu with hu | hu
    · exact mentioned_or_usedApart_of_mem hlayouts hu
    · exact .inr (.elsewhere hu rfl)
  · rintro (⟨t, ht, hmentions⟩ | hused)
    · obtain ⟨u, hu, hkey⟩ := exists_use_of_mentions hlayouts ht hmentions
      exact ⟨u, List.mem_append_left _ hu, hkey⟩
    · exact exists_use_of_usedApart hlayouts hused

/-! ## Steps of scripts -/

theorem hasField_scopeAt (h : (fieldsAt root).hasField table field = true) :
    (scopeAt root).hasField table field = true := by
  have hmem : field ∈ (scopeAt root).fieldsOf table := mem_fieldsOf_iff.mpr h
  rw [Scope.fieldsOf] at hmem
  rw [Scope.hasField]
  split at hmem
  · exact Register.mem_names_iff.mp hmem
  · cases hmem

/-- An occurrence of a table stands for the table. -/
theorem nearKey?_eq {occurrence table field : String}
    (hoccurrence : (declaredOccurrences root).get? occurrence = some table)
    (hfield : (fieldsAt root).hasField table field = true) :
    (scopeAt root).nearKey? occurrence field = some (fieldKey table field) := by
  have hbase : (scopeAt root).base occurrence = table := by
    rw [Scope.base, scopeAt, Scope.ofCatalog, base, Register.getD, hoccurrence]
    rfl
  rw [Scope.nearKey?, Scope.key?, hbase, if_pos (hasField_scopeAt hfield)]

theorem mem_pairs_scopeAt (h : (fieldsAt root).hasField table field = true) :
    (table, field) ∈ (scopeAt root).pairs := by
  obtain ⟨fs, hfs, hname⟩ := exists_entry_of_hasField h
  refine List.mem_flatMap.mpr ⟨(table, withIds fs), List.mem_map.mpr ⟨(table, fs), hfs, rfl⟩, ?_⟩
  rw [← names_withIds] at hname
  exact List.mem_map_of_mem hname

/-- The calculation of a step of a script. -/
def InStep (root : Site) (t : String) : Prop :=
  ∃ script ∈ root.all "Script", ∃ step ∈ script.all "Step", ∃ c ∈ step.all "Calculation",
    c.node.written? = some t

theorem exists_otherUses_of_inStep (ht : InStep root t)
    (h : ∀ context, ∃ u ∈ calculationUses s none context t, u.key = key) :
    ∃ u ∈ otherUses s root, u.key = key := by
  obtain ⟨script, hscript, step, hstep, c, hc, ht⟩ := ht
  have hstepUses : ∃ u ∈ stepUses s (script.node.attrD "name" "Unknown Script") step,
      u.key = key := by
    have htext : ∀ context, textUses s none context (some c) = calculationUses s none context t := by
      intro context
      simp only [textUses, Option.bind_some, ht]
    obtain ⟨u, hu, hkey⟩ := h _
    rw [← htext] at hu
    simp only [stepUses, List.mem_append, List.mem_flatMap]
    exact ⟨u, .inl (.inl (.inr ⟨c, hc, hu⟩)), hkey⟩
  obtain ⟨u, hu, hkey⟩ := hstepUses
  have hscripts : u ∈ usesInScripts s root :=
    List.mem_flatMap.mpr ⟨script, hscript, List.mem_flatMap.mpr ⟨step, hstep, hu⟩⟩
  refine ⟨u, ?_, hkey⟩
  simp only [otherUses, List.mem_append, hscripts, true_or]

/-- A step uses a field that it names with an occurrence of its table. -/
theorem exists_use_of_inStep {t occurrence table field : String} (ht : InStep root t)
    (hoccurrence : (declaredOccurrences root).get? occurrence = some table)
    (hfield : (fieldsAt root).hasField table field = true)
    (hpair : (occurrence.toList, field.toList) ∈ (pairPattern "::").findPairs t.toList) :
    ∃ u ∈ otherUses (scopeAt root) root, u.key = fieldKey table field :=
  exists_otherUses_of_inStep ht fun _ =>
    ⟨_, mem_calculationUses_of_pair (nearKey?_eq hoccurrence hfield) hpair, rfl⟩

/-- **Fields that a button or a web viewer names with an occurrence of their table.** Such a field is
counted exactly if the calculation of a button or a web viewer has the joined name of the field and the
base table itself, or each of the two with a dot, or something else uses the field. The name with the
occurrence is not looked at, whereas the same text in a step of a script makes the field count. -/
theorem reference_in_control_counted_iff {raw occurrence table field : String} {uses : List Use}
    (hopen : openDocument "findall" raw = .ok root)
    (hlayouts : usesOnLayouts (scopeAt root) root = .ok uses)
    (hoccurrence : (declaredOccurrences root).get? occurrence = some table)
    (hfield : (fieldsAt root).hasField table field = true) :
    (Counted raw table field ↔
      (∃ t, InControl root t ∧ Mentions (scopeAt root) t (fieldKey table field)) ∨
        UsedApart (scopeAt root) root (fieldKey table field)) ∧
    (∀ t, InControl root t → has (fieldKey table field) t = true → Counted raw table field) ∧
    (∀ t, InStep root t → IsPlain occurrence → IsPlain field → NamesPair t occurrence field →
      Counted raw table field) := by
  have hcounted := counted_iff_mentioned_or_apart hopen hlayouts hfield
  refine ⟨hcounted, fun t ht hhas => ?_, fun t ht hplain hplain' hpair => ?_⟩
  · exact hcounted.mpr (.inl ⟨t, ht, table, field, mem_pairs_scopeAt hfield, rfl, .inl hhas⟩)
  · obtain ⟨u, hu, hkey⟩ :=
      exists_use_of_inStep ht hoccurrence hfield (mem_findPairs hplain hplain' hpair)
    exact hcounted.mpr (.inr (.elsewhere hu hkey))

/-- A document with a button and a script that name fields with an occurrence of their table. -/
def controlReport : String :=
  "<F><BaseTable name='T'><Field name='f' id='1'/><Field name='g' id='2'/>" ++
  "<Field name='h' id='3'/></BaseTable><TableOccurrence name='O' baseTable='T'/>" ++
  "<Layout name='L'><Object type='Button'><Calculation>O::f + T::g</Calculation></Object></Layout>" ++
  "<Script name='S'><Step name='Exit Script'><Calculation>O::h</Calculation></Step></Script></F>"

def controlTree : Node :=
  plain "F" []
    [plain "BaseTable" [("name", "T")]
      [plain "Field" [("name", "f"), ("id", "1")] [], plain "Field" [("name", "g"), ("id", "2")] [],
       plain "Field" [("name", "h"), ("id", "3")] []],
     plain "TableOccurrence" [("name", "O"), ("baseTable", "T")] [],
     plain "Layout" [("name", "L")]
      [plain "Object" [("type", "Button")] [calculationOf "O::f + T::g"]],
     plain "Script" [("name", "S")]
      [plain "Step" [("name", "Exit Script")] [calculationOf "O::h"]]]

set_option maxRecDepth 20000 in
theorem read_control : read controlReport = .ok (some controlTree) :=
  (read_eq_of_toList (toList_append_of (toList_three _ _ _) String.toList_ofList) (by decide)
    (by rfl) (by rfl)).trans (by rfl)

theorem control_uses : ∃ uses,
    usesOnLayouts (scopeAt (Site.root controlTree)) (Site.root controlTree) = .ok uses ∧
      (uses ++ otherUses (scopeAt (Site.root controlTree)) (Site.root controlTree)).map Use.key =
        ["T::g", "T::h"] :=
  ⟨_, rfl, by decide +kernel⟩

theorem control_inControl : InControl (Site.root controlTree) "O::f + T::g" :=
  .button (List.get_mem _ ⟨0, by decide⟩) (List.get_mem _ ⟨0, by decide⟩)
    (List.get_mem _ ⟨0, by decide⟩) rfl

theorem control_inStep : InStep (Site.root controlTree) "O::h" :=
  ⟨_, List.get_mem _ ⟨0, by decide⟩, _, List.get_mem _ ⟨0, by decide⟩, _,
    List.get_mem _ ⟨0, by decide⟩, rfl⟩

/-- Of two fields that a button names, only the one with the name of its base table is counted; a step
may name the table by its occurrence. -/
theorem control_field_not_counted :
    (declaredOccurrences (Site.root controlTree)).get? "O" = some "T" ∧
    (InControl (Site.root controlTree) "O::f + T::g" ∧ NamesPair "O::f + T::g" "O" "f" ∧
      ¬ Counted controlReport "T" "f" ∧ Counted controlReport "T" "g") ∧
    InStep (Site.root controlTree) "O::h" ∧ NamesPair "O::h" "O" "h" ∧
      Counted controlReport "T" "h" := by
  obtain ⟨uses, huses, hkeys⟩ := control_uses
  have hopen := openDocument_of_read read_control "findall"
  have hoccurrence : (declaredOccurrences (Site.root controlTree)).get? "O" = some "T" := by decide
  have hfields : ∀ field ∈ ["f", "g", "h"],
      (fieldsAt (Site.root controlTree)).hasField "T" field = true := by decide +kernel
  have hmain := fun field hfield =>
    reference_in_control_counted_iff hopen huses hoccurrence (hfields field hfield)
  have hpair : NamesPair "O::h" "O" "h" := ⟨[], [], by decide, by decide, by decide⟩
  refine ⟨hoccurrence, ⟨control_inControl, ⟨[], " + T::g".toList, by decide, by decide, by decide⟩,
    ?_, ?_⟩, control_inStep, hpair, ?_⟩
  · rw [counted_iff hopen huses (hfields "f" (by decide)), ← List.mem_map, hkeys]
    decide +kernel
  · exact (hmain "g" (by decide)).2.1 _ control_inControl (by decide +kernel)
  · exact (hmain "h" (by decide)).2.2 _ control_inStep (by decide) (by decide) hpair

end DesignAudit.FieldUse
