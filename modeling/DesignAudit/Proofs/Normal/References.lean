import DesignAudit.Proofs.Dangling.Tables
import DesignAudit.Proofs.FieldUse.Declared
import DesignAudit.Proofs.FieldUse.Plussed
import DesignAudit.Proofs.Normal.Structure

/-!
# References to tables that are marked with a pictograph

References allow for a few pictographs in the names of tables. In the normal form of a report a plus
sign stands for each of them, in the names of tables and in calculations alike. References do not
allow for the plus sign, so that a calculation of the normal form names the table without its mark
(`marked_reference_counted_iff`): the field is not counted for it, and the table is unknown.

The normal form of a report is read as a tree with the normal forms of the names and texts that are
written in it (`mentionsField_of_writes`, `inStep_of_writes`), because a name, a reference, and one of
them behind a pictograph have normal forms that are known (`HasForm`).
-/

namespace DesignAudit.Normal

open Markup Text
open FieldUse (IsPlain IsPlaceholder InStep Counted UsedBeside MentionsField plussed fieldKey
  fieldsAt scopeAt)
open Dangling (ownAudit known unknownTable)
open Layout (NoInfiniteBounds)

/-! ## Names and references -/

/-- The pictographs that references allow for in the name of a table. -/
def tablePictographs : List String := ["🌎", "🧑‍🎓", "🔗", "👥", "🧑", "🎓"]

/-- A character of a plain name, or the colon of a reference. -/
def IsReferenceChar (c : Char) : Prop := isIdentifier c = true ∨ c = ':'

/-- The normal form of a name or a reference, or of one of them behind a pictograph. -/
inductive HasForm : List Char → List Char → Prop where
  | plain {w : List Char} (h : ∀ c ∈ w, IsReferenceChar c) : HasForm w w
  | marked {mark : String} {w : List Char} (hmark : mark ∈ tablePictographs)
      (h : ∀ c ∈ w, IsReferenceChar c) : HasForm (mark.toList ++ w) ('+' :: w)

/-- A character of a reference is left alone by the normal form and by the reader. -/
theorem IsReferenceChar.kept {c : Char} (h : IsReferenceChar c) :
    (IsPlainChar c ∧ c ∉ ['/', '>', ';']) ∧
      Reading.isPlain c = true ∧ isSpace c = false ∧ c ≠ ']' := by
  rcases h with h | rfl
  · exact forall_of_isIdentifier (p := fun c => (IsPlainChar c ∧ c ∉ ['/', '>', ';']) ∧
      Reading.isPlain c = true ∧ isSpace c = false ∧ c ≠ ']') (by decide) h
  · decide

namespace HasForm

variable {v w : List Char}

theorem isVerbatim (h : HasForm v w) : IsVerbatim w := by
  have hplain : ∀ {w : List Char}, (∀ c ∈ w, IsReferenceChar c) → IsVerbatim w := fun h c hc =>
    (h c hc).kept.2
  cases h with
  | plain h => exact hplain h
  | marked _ h => exact List.forall_mem_cons.mpr ⟨by decide, hplain h⟩

theorem isAscii (h : HasForm v w) : IsAscii w := by
  have hplain : ∀ {w : List Char}, (∀ c ∈ w, IsReferenceChar c) → IsAscii w := fun h c hc =>
    (h c hc).kept.1.1.1
  cases h with
  | plain h => exact hplain h
  | marked _ h => exact List.forall_mem_cons.mpr ⟨by decide, hplain h⟩

/-- The form of a name or a reference is its normal form, by itself and behind a quote. -/
theorem eq_of_isNormalOf (h : HasForm v w) {v' : List Char} (hv : IsNormalOf v' v) : v' = w := by
  -- what follows can be cut off, and stays as it is
  have hcut : ∀ {u w : List Char}, (∀ c ∈ w, IsReferenceChar c) →
      normalised (u ++ w) = normalised u ++ w := by
    intro u w hw
    have hhead : ∀ b ∈ w.head?, IsReferenceChar b := fun b hb => hw b (List.mem_of_head? hb)
    rw [normalised_append (fun b hb => ?_) fun hquestion => ?_,
      normalised_of_isPlainChar fun c hc => (hw c hc).kept.1.1]
    · obtain ⟨⟨hplain, hend⟩, -⟩ := (hhead b hb).kept
      exact ⟨hplain.1, hend⟩
    · exact absurd rfl (hhead '?' hquestion).kept.1.1.2.2
  have hmarks : ∀ mark ∈ tablePictographs, normalised mark.toList = ['+'] ∧
      ∀ q ∈ quotes, normalised (q :: mark.toList) = [q, '+'] := by decide +kernel
  rcases hv with hv | ⟨q, hq, hv⟩
  · cases h with
    | plain h => rw [← hv, normalised_of_isPlainChar fun c hc => (h c hc).kept.1.1]
    | marked hmark h =>
      rw [← hv, hcut h, (hmarks _ hmark).1]
      rfl
  · cases h with
    | plain h =>
      rw [← List.singleton_append, hcut h, normalised_quote hq] at hv
      exact (List.cons.inj hv).2.symm
    | marked hmark h =>
      rw [← List.cons_append, hcut h, (hmarks _ hmark).2 q hq] at hv
      exact (List.cons.inj hv).2.symm

end HasForm

/-- A text has the form that another one has, if this is a name or a reference. -/
def Follows (v' v : List Char) : Prop := ∀ w, HasForm v w → v' = w

theorem follows_of_isNormalOf {v' v : List Char} (h : IsNormalOf v' v) : Follows v' v :=
  fun _ hform => hform.eq_of_isNormalOf h

theorem Follows.bytewiseText {v' v : List Char} (h : Follows v' v) :
    Follows (Markup.bytewiseText v') v := by
  intro w hw
  rw [h w hw, bytewiseText_of_ascii hw.isAscii]

theorem Follows.eq_nil {v' : List Char} (h : Follows v' []) : v' = [] :=
  h [] (.plain (List.forall_mem_nil _))

/-! ## Written fields and steps -/

/-- A document names a field inside a base table. -/
def WritesField (d : Document) (table field : List Char) : Prop :=
  ∃ t tags after rest base, d.Places t tags after rest ∧ [base].Sublist tags.dropLast ∧
    (t.name = "Field".toList ∧ t.value? "name" = some field) ∧
    base.name = "BaseTable".toList ∧ base.value? "name" = some table

/-- The calculation of a step of a script consists of a text. -/
def WritesStep (d : Document) (w : List Char) : Prop :=
  ∃ t tags after rest step script, d.Places t tags after rest ∧
    [step, script].Sublist tags.dropLast ∧
    (t.name = "Calculation".toList ∧ t.closed = false ∧ WritesText w after rest) ∧
    step.name = "Step".toList ∧ script.name = "Script".toList

section Related

variable {d' d : Document} (h : d'.Related Follows d)

include h

theorem WritesField.of_follows {table table' field field' : List Char}
    (htable : HasForm table table') (hfield : HasForm field field')
    (hwrites : WritesField d table field) : WritesField d' table' field' := by
  obtain ⟨t, tags, after, rest, base, hplaces, hinside, ⟨hname, hvalue⟩, hbase, hbaseValue⟩ := hwrites
  obtain ⟨t', tags', after', rest', inside, hplaces', hinside', hrelated, -, -⟩ :=
    h.places_inside hplaces hinside
  obtain _ | ⟨ht, _ | ⟨hbase', _ | _⟩⟩ := hrelated
  obtain ⟨v, hv, hfollows⟩ := ht.value? hvalue
  obtain ⟨u, hu, hfollows'⟩ := hbase'.value? hbaseValue
  rw [hfollows _ hfield] at hv
  rw [hfollows' _ htable] at hu
  exact ⟨t', tags', after', rest', _, hplaces', hinside', ⟨ht.name.trans hname, hv⟩,
    hbase'.name.trans hbase, hu⟩

theorem WritesStep.of_follows {v w : List Char} (hform : HasForm v w) (hwrites : WritesStep d v) :
    WritesStep d' w := by
  obtain ⟨t, tags, after, rest, step, script, hplaces, hinside, ⟨hname, hopen, htext⟩, hstep,
    hscript⟩ := hwrites
  obtain ⟨t', tags', after', rest', inside, hplaces', hinside', hrelated, hafter, hrest⟩ :=
    h.places_inside hplaces hinside
  obtain _ | ⟨ht, _ | ⟨hstep', _ | ⟨hscript', _ | _⟩⟩⟩ := hrelated
  exact ⟨t', tags', after', rest', _, _, hplaces', hinside',
    ⟨ht.name.trans hname, ht.closed.trans hopen,
      htext.of_related hafter hrest (fun hv => hv w hform) fun hv => hv.eq_nil⟩,
    hstep'.name.trans hstep, hscript'.name.trans hscript⟩

end Related

section Read

variable {d : Document} {n : Node} (hread : d.ReadAs n)
  (hdefault : ∀ u ∈ d.decoded.startTags, u.declaresDefault = false)

include hread hdefault

/-- A field that is named inside a base table is mentioned in the tree. -/
theorem mentionsField_of_writes {table field : String} (htable : table ≠ "") (hfield : field ≠ "")
    (htables : IsVerbatim table.toList) (hfields : IsVerbatim field.toList)
    (hwrites : WritesField d.decoded table.toList field.toList) :
    MentionsField (Site.root n) table field := by
  obtain ⟨t, tags, after, rest, base, hplaces, hinside, ⟨hname, hvalue⟩, hbase, hbaseValue⟩ := hwrites
  obtain ⟨s, sites, hshown, hbelow⟩ := Document.exists_sites hread hplaces hdefault hinside
  obtain _ | ⟨hs, _ | ⟨hb, _ | _⟩⟩ := hshown
  simp only [List.cons_append, List.nil_append, List.pairwise_cons, List.mem_cons] at hbelow
  have hnamed : ∀ {s : Site} {name : String}, name ≠ "" →
      s.node.attr? "name" = some (String.ofList name.toList) → s.node.named? "name" = some name := by
    intro s name hne hattr
    rw [Node.named?, hattr, String.ofList_toList]
    exact Option.filter_eq_some_iff.mpr ⟨rfl, decide_eq_true hne⟩
  refine ⟨_, Site.mem_all.mpr ⟨hbelow.2.1 _ (.inl rfl), hb.tag (by decide) hbase⟩,
    hnamed htable (hb.value (by decide) htables hbaseValue), s,
    Site.mem_all.mpr ⟨hbelow.1 _ (.inl rfl), hs.tag (by decide) hname⟩,
    hnamed hfield (hs.value (by decide) hfields hvalue)⟩

/-- The calculation of a step is that of a step of the tree. -/
theorem inStep_of_writes {t : String} (hne : t ≠ "") (ht : IsVerbatim t.toList)
    (hwrites : WritesStep d.decoded t.toList) : InStep (Site.root n) t := by
  obtain ⟨c, tags, after, rest, step, script, hplaces, hinside, ⟨hname, hopen, htext⟩, hstep,
    hscript⟩ := hwrites
  obtain ⟨s, sites, hwritten, hshown, hbelow⟩ := Document.exists_sites_of_text hread hplaces hdefault
    hinside hopen ht (mt String.toList_eq_nil_iff.mp hne) htext
  obtain _ | ⟨hs, _ | ⟨hb, _ | ⟨ha, _ | _⟩⟩⟩ := hshown
  simp only [List.cons_append, List.nil_append, List.pairwise_cons, List.mem_cons] at hbelow
  refine ⟨_, Site.mem_all.mpr ⟨hbelow.2.2.1 _ (.inl rfl), ha.tag (by decide) hscript⟩, _,
    Site.mem_all.mpr ⟨hbelow.2.1 _ (.inl rfl), hb.tag (by decide) hstep⟩, s,
    Site.mem_all.mpr ⟨hbelow.1 _ (.inl rfl), hs.tag (by decide) hname⟩, ?_⟩
  rw [Node.written?, hwritten, String.ofList_toList]
  exact Option.filter_eq_some_iff.mpr ⟨rfl, decide_eq_true hne⟩

end Read

/-! ## Reports -/

/-- The normal form of a sheltered document is a document that is read as a tree, with the forms of the
names and references. -/
theorem exists_readAs_of_sheltered {d : Document} (hd : d.WellFormed) (hascii : HasAsciiNames d)
    (hencoded : d.Encoded) (hknown : isKnownEncoding (declaredEncoding? d.text) = true)
    (hsheltered : Sheltered d) :
    ∃ (d' : Document) (n : Node), d'.ReadAs n ∧ normalised d.text = d'.text ∧
      d'.decoded.Related Follows d := by
  obtain ⟨d', hd', halike, hrelated, htext⟩ := exists_related_document hd hascii hsheltered
  have hencoding := halike.declaredEncoding?_eq hd' hd
  have hencoded' : d'.Encoded := by
    intro name hname hplain
    rw [← htext]
    exact isAscii_normalised (hencoded name (hencoding ▸ hname) hplain)
  have hascii' := halike.hasAsciiNames hascii
  have hknown' := hencoding.symm ▸ hknown
  obtain ⟨n, hn, -⟩ := Document.exists_read hd' hascii' hencoded' hknown'
  exact ⟨d', n, ⟨hd', hascii', hencoded', hknown', hn⟩, htext,
    (hrelated.mono follows_of_isNormalOf).decoded Follows.bytewiseText⟩

/-- As it is written, a reference names the table with its pictograph. -/
theorem mem_findPairs_marked {mark table field : String} (hmark : mark ∈ tablePictographs)
    (htable : IsPlain table) (hfield : IsPlain field) :
    ∀ pattern ∈ [FieldUse.pairPattern "::", Dangling.referencePattern],
      ((mark ++ table).toList, field.toList) ∈
        pattern.findPairs (fieldKey (mark ++ table) field).toList := by
  have hmarks : ∀ mark ∈ tablePictographs, ∀ c ∈ mark.toList,
      FieldUse.isTableName c = true ∧ Dangling.isTablePart c = true := by decide
  have hfound : ∀ {p q : Char → Bool}, (∀ c, q c = true → p c = true) → p ':' = false →
      (∀ c, isIdentifier c = true → q c = true) → (∀ c ∈ mark.toList, p c = true) →
      ((mark ++ table).toList, field.toList) ∈
        (FieldUse.joinedNames p q).findPairs (fieldKey (mark ++ table) field).toList := by
    intro p q hq hcolon hplain hp
    have htables : ∀ c ∈ (mark ++ table).toList, p c = true := by
      intro c hc
      rw [String.toList_append] at hc
      exact (List.mem_append.mp hc).elim (hp c) fun hc => hq c (hplain c (htable.2 c hc))
    have hne : (mark ++ table).toList ≠ [] := by
      rw [String.toList_append]
      exact List.append_ne_nil_of_right_ne_nil _ htable.toList_ne_nil
    have hmem : ((mark ++ table).toList, field.toList) ∈ (FieldUse.joinedNames p q).findPairs
        ([] ++ ((mark ++ table).toList ++ ("::".toList ++ (field.toList ++ [])))) :=
      FieldUse.mem_findPairs_joinedNames hq hcolon hne htables hfield.toList_ne_nil
        (fun c hc => hplain c (hfield.2 c hc)) (by simp) (by simp)
    rwa [List.nil_append, List.append_nil, ← FieldUse.toList_fieldKey] at hmem
  rw [List.forall_mem_cons, List.forall_mem_singleton]
  exact ⟨hfound (fun _ => FieldUse.isTableName_of_isName) (by decide)
      (fun _ => FieldUse.isName_of_isIdentifier) fun c hc => (hmarks mark hmark c hc).1,
    hfound (fun c hc => by rw [Dangling.isTablePart, hc, Bool.true_or]) (by decide) (fun _ hc => hc)
      fun c hc => (hmarks mark hmark c hc).2⟩

/-- A calculation with a plus sign before a table names the table without it. -/
theorem exists_namesTable {root : Site} {table field : String} (htable : IsPlain table)
    (hfield : IsPlain field) (hquery : has "ExecuteSQL" (fieldKey (plussed table) field) = false)
    (hstep : InStep root (fieldKey (plussed table) field)) :
    ∃ c, Dangling.Audited root c ∧ Dangling.NamesTable c table := by
  obtain ⟨script, hscript, step, hstep, c, hc, hwritten⟩ := hstep
  have hpairs : Dangling.referencePattern.findPairs (fieldKey (plussed table) field).toList =
      [(table.toList, field.toList)] := by
    rw [FieldUse.toList_reference]
    refine FieldUse.findPairs_joinedNames (p := Dangling.isTablePart) (q := isIdentifier) (by decide)
      htable.toList_ne_nil (fun c hc => ?_) hfield.toList_ne_nil hfield.2 (by decide)
    rw [Dangling.isTablePart, htable.2 c hc, Bool.true_or]
  exact ⟨c, .step hscript hstep hc, _, field.toList, hwritten, hquery,
    hpairs ▸ List.mem_singleton_self _⟩

/-- In the normal form of a report, a marked table and a step that names its field have a plus sign for
the pictograph. -/
theorem exists_plussed_tree {d : Document} (hd : d.WellFormed) (hascii : HasAsciiNames d)
    (hencoded : d.Encoded) (hknown : isKnownEncoding (declaredEncoding? d.text) = true)
    (hsheltered : Sheltered d) (hdefault : ∀ u ∈ d.startTags, u.declaresDefault = false)
    {mark table field : String} (hmark : mark ∈ tablePictographs) (htable : IsPlain table)
    (hfield : IsPlain field) (hdeclares : WritesField d (mark ++ table).toList field.toList)
    (hcalculates : WritesStep d (fieldKey (mark ++ table) field).toList) :
    ∃ n, read (String.ofList (normalised d.text)) = .ok (some n) ∧
      (fieldsAt (Site.root n)).hasField (plussed table) field = true ∧
      InStep (Site.root n) (fieldKey (plussed table) field) := by
  obtain ⟨d', n, hread, htext, hrelated⟩ :=
    exists_readAs_of_sheltered hd hascii hencoded hknown hsheltered
  have hdefault' := hrelated.forall_declaresDefault hdefault
  -- the forms of the three texts
  have hfieldForm : HasForm field.toList field.toList := .plain fun c hc => .inl (hfield.2 c hc)
  have htableForm : HasForm (mark ++ table).toList (plussed table).toList := by
    rw [plussed, String.toList_append, String.toList_append]
    exact .marked hmark fun c hc => .inl (htable.2 c hc)
  have hreferenceForm : HasForm (fieldKey (mark ++ table) field).toList
      (fieldKey (plussed table) field).toList := by
    rw [FieldUse.toList_fieldKey, String.toList_append, List.append_assoc,
      FieldUse.toList_reference]
    refine .marked hmark fun c hc => ?_
    simp only [List.mem_append] at hc
    rcases hc with hc | hc | hc
    · exact .inl (htable.2 c hc)
    · exact .inr (by simpa using hc)
    · exact .inl (hfield.2 c hc)
  have hmentions := mentionsField_of_writes hread hdefault' (by simp [plussed]) hfield.1
    htableForm.isVerbatim hfieldForm.isVerbatim (hdeclares.of_follows hrelated htableForm hfieldForm)
  have hstep := inStep_of_writes hread hdefault' (by simp [fieldKey, plussed])
    hreferenceForm.isVerbatim (hcalculates.of_follows hrelated hreferenceForm)
  rw [htext]
  exact ⟨n, hread.read, FieldUse.hasField_iff_declares_or_mentions.mpr (.inr hmentions), hstep⟩

/-- **References to a table that is marked with a pictograph.** Take a report with a base table whose
name is a pictograph of references and a plain name, and a step whose calculation consists of this
name, a double colon and the plain name of a field of the table. As it is written, the calculation
names the table. In the tree of the normal form of the report, table and calculation have a plus sign
for the pictograph, and the calculation names the table without it. So the field is counted exactly if
this name is an occurrence of the table, the text is taken for a placeholder, or something else uses
the field; and the audit of dangling references tells of an unknown table exactly if the catalogue
lacks a table of this name. -/
theorem marked_reference_counted_iff {d : Document} (hd : d.WellFormed) (hascii : HasAsciiNames d)
    (hencoded : d.Encoded) (hknown : isKnownEncoding (declaredEncoding? d.text) = true)
    (hsheltered : Sheltered d) (hdefault : ∀ u ∈ d.startTags, u.declaresDefault = false)
    {mark table field : String} (hmark : mark ∈ tablePictographs) (htable : IsPlain table)
    (hfield : IsPlain field) (hdeclares : WritesField d (mark ++ table).toList field.toList)
    (hcalculates : WritesStep d (fieldKey (mark ++ table) field).toList) :
    (∀ pattern ∈ [FieldUse.pairPattern "::", Dangling.referencePattern],
      ((mark ++ table).toList, field.toList) ∈
        pattern.findPairs (fieldKey (mark ++ table) field).toList) ∧
    ∃ n, read (String.ofList (normalised d.text)) = .ok (some n) ∧
      (fieldsAt (Site.root n)).hasField (plussed table) field = true ∧
      InStep (Site.root n) (fieldKey (plussed table) field) ∧
      (NoInfiniteBounds (Site.root n) →
        (Counted (String.ofList (normalised d.text)) (plussed table) field ↔
          (Catalog.declaredOccurrences (Site.root n)).get? table = some (plussed table) ∨
            IsPlaceholder (fieldKey (plussed table) field) ∨
            UsedBeside (scopeAt (Site.root n)) (Site.root n) (fieldKey (plussed table) field)
              (fieldKey (plussed table) field)) ∧
        ((ownAudit n).log = [] → has "ExecuteSQL" (fieldKey (plussed table) field) = false →
          ((∃ row ∈ (ownAudit n).rows, ("Error", .text (unknownTable table)) ∈ row) ↔
            (known n).Lacks table))) := by
  obtain ⟨n, hread, hhas, hstep⟩ := exists_plussed_tree hd hascii hencoded hknown hsheltered hdefault
    hmark htable hfield hdeclares hcalculates
  refine ⟨mem_findPairs_marked hmark htable hfield, n, hread, hhas, hstep,
    fun hbounds => ⟨?_, fun hlog hquery => ?_⟩⟩
  · obtain ⟨uses, huses⟩ := FieldUse.exists_usesOnLayouts_eq_ok (scopeAt (Site.root n)) hbounds
    exact FieldUse.counted_plussed_iff htable hfield (openDocument_of_read hread "findall") huses hhas
      hstep
  · rw [Dangling.exists_unknownTable_row_iff hbounds hlog,
      and_iff_right (exists_namesTable htable hfield hquery hstep)]

/-- A report with one table, which is marked with a pictograph, and a step that names its field. -/
def markedReport : Document where
  lead := []
  prolog := []
  root := ⟨['F'], [], [], false⟩
  after := []
  segments :=
    [⟨.start ⟨"BaseTable".toList, [spelled "name" '"' "🌎T"], [], false⟩, []⟩,
     ⟨.start ⟨"Field".toList, [spelled "name" '"' "f", spelled "id" '"' "1"], [], true⟩, []⟩,
     ⟨.stop "BaseTable".toList [], []⟩,
     ⟨.start ⟨"Script".toList, [spelled "name" '"' "S"], [], false⟩, []⟩,
     ⟨.start ⟨"Step".toList, [spelled "name" '"' "Set Variable", spelled "index" '"' "1"], [],
       false⟩, []⟩,
     ⟨.start ⟨"Calculation".toList, [], [], false⟩, "🌎T::f".toList⟩,
     ⟨.stop "Calculation".toList [], []⟩,
     ⟨.stop "Step".toList [], []⟩,
     ⟨.stop "Script".toList [], []⟩,
     ⟨.stop ['F'] [], []⟩]

/-- Its normal form. -/
def plussedReport : String :=
  "<F><BaseTable name=\"+T\"><Field name=\"f\" id=\"1\" /></BaseTable><Script name=\"S\">" ++
  "<Step name=\"Set Variable\" index=\"1\"><Calculation>+T::f</Calculation></Step></Script></F>"

/-- The tree of its normal form. -/
def plussedTree : Node :=
  plain "F" []
    [plain "BaseTable" [("name", "+T")] [plain "Field" [("name", "f"), ("id", "1")] []],
     plain "Script" [("name", "S")]
      [plain "Step" [("name", "Set Variable"), ("index", "1")]
        [calculationOf "+T::f"]]]

theorem markedReport_writesField : WritesField markedReport "🌎T".toList "f".toList :=
  ⟨_, _, _, _, _, ⟨⟨markedReport.segments.take 1, rfl, rfl⟩, List.cons_ne_nil _ _, by decide⟩,
    .refl _, ⟨rfl, rfl⟩, rfl, rfl⟩

theorem markedReport_writesStep : WritesStep markedReport "🌎T::f".toList :=
  ⟨_, _, _, _, _, _, ⟨⟨markedReport.segments.take 5, rfl, rfl⟩, List.cons_ne_nil _ _, by decide⟩,
    .refl _, ⟨rfl, rfl, .plain (by simp [Mark.isLiteral])⟩, rfl, rfl⟩

theorem ofList_markedReport : String.ofList (normalised markedReport.text) = plussedReport :=
  ofList_eq_of_toList (toList_two _ _) (by decide +kernel)

set_option maxRecDepth 20000 in
theorem read_plussedReport : read plussedReport = .ok (some plussedTree) :=
  (read_eq_of_toList (toList_two _ _) (by decide) (by rfl) (by rfl)).trans (by rfl)

theorem plussedTree_uses : ∃ uses,
    FieldUse.usesOnLayouts (scopeAt (Site.root plussedTree)) (Site.root plussedTree) = .ok uses ∧
      (uses ++ FieldUse.otherUses (scopeAt (Site.root plussedTree)) (Site.root plussedTree)).map
        FieldUse.Use.key = [] :=
  ⟨_, rfl, by decide +kernel⟩

/-- The field of the marked table is not counted, although the step names it, and the audit tells of an
unknown table. -/
theorem marked_field_not_counted :
    (markedReport.WellFormed ∧ HasAsciiNames markedReport ∧ markedReport.Encoded ∧
      isKnownEncoding (declaredEncoding? markedReport.text) = true ∧ Sheltered markedReport ∧
      ∀ u ∈ markedReport.startTags, u.declaresDefault = false) ∧
    (WritesField markedReport "🌎T".toList "f".toList ∧
      WritesStep markedReport "🌎T::f".toList) ∧
    (read (String.ofList (normalised markedReport.text)) = .ok (some plussedTree) ∧
      NoInfiniteBounds (Site.root plussedTree) ∧ (ownAudit plussedTree).log = []) ∧
    ¬ Counted (String.ofList (normalised markedReport.text)) "+T" "f" ∧
    ∃ row ∈ (ownAudit plussedTree).rows, ("Error", .text (unknownTable "T")) ∈ row := by
  have hd : markedReport.WellFormed := by decide +kernel
  have hascii : HasAsciiNames markedReport := by decide +kernel
  have hencoded : markedReport.Encoded := by decide +kernel
  have hknown : isKnownEncoding (declaredEncoding? markedReport.text) = true := by decide +kernel
  have hsheltered : Sheltered markedReport := by decide +kernel
  have hdefault : ∀ u ∈ markedReport.startTags, u.declaresDefault = false := by decide
  have hbounds : NoInfiniteBounds (Site.root plussedTree) := by decide
  have hlog : (ownAudit plussedTree).log = [] := by decide +kernel
  have hdeclares : WritesField markedReport ("🌎" ++ "T").toList "f".toList := markedReport_writesField
  have hcalculates : WritesStep markedReport (fieldKey ("🌎" ++ "T") "f").toList :=
    markedReport_writesStep
  obtain ⟨-, n, hread, -, -, hmain⟩ := marked_reference_counted_iff hd hascii hencoded hknown hsheltered
    hdefault (by decide) (by decide) (by decide) hdeclares hcalculates
  obtain rfl : n = plussedTree := by
    rw [ofList_markedReport, read_plussedReport] at hread
    exact (Option.some.inj (Except.ok.inj hread)).symm
  obtain ⟨hcounted, hunknown⟩ := hmain hbounds
  refine ⟨⟨hd, hascii, hencoded, hknown, hsheltered, hdefault⟩, ⟨hdeclares, hcalculates⟩,
    ⟨hread, hbounds, hlog⟩, fun h => ?_, (hunknown hlog (by decide +kernel)).mpr (by decide +kernel)⟩
  rcases hcounted.mp h with h | h | ⟨uses, huses, u, hu, -⟩
  · exact absurd h (by decide)
  · exact absurd h (by decide)
  · obtain ⟨uses', huses', hkeys⟩ := plussedTree_uses
    obtain rfl := Except.ok.inj (huses.symm.trans huses')
    rw [List.map_eq_nil_iff.mp hkeys] at hu
    cases hu

end DesignAudit.Normal
