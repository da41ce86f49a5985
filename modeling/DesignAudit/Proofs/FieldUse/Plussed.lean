import DesignAudit.Proofs.FieldUse.Controls

/-!
# References behind a plus sign

A plus sign is no character of a name. So a calculation that consists of a plus sign, a table, a
double colon and a field names the table without the plus sign (`findPairs_plussed`), and is no use of
the field of the table whose name begins with the plus sign, unless the other name is an occurrence of
this table or the text is taken for a placeholder (`exists_calculationUses_plussed_iff`).
-/

namespace DesignAudit.FieldUse

open Markup Text Text.Pattern Catalog

/-- The name of a table behind a plus sign. -/
def plussed (table : String) : String := "+" ++ table

/-- A text with one of the words of placeholders. -/
def IsPlaceholder (t : String) : Prop := has "PlaceholderText" t = true ∨ has "findMode" t = true

instance (t : String) : Decidable (IsPlaceholder t) := inferInstanceAs (Decidable (_ ∨ _))

variable {s : Scope} {table field : String}

theorem toList_fieldKey (table field : String) :
    (fieldKey table field).toList = table.toList ++ ("::".toList ++ field.toList) := by
  simp [fieldKey]

theorem toList_reference (table field : String) :
    (fieldKey (plussed table) field).toList =
      '+' :: (table.toList ++ ("::".toList ++ field.toList)) := by
  rw [toList_fieldKey, plussed, String.toList_append]
  rfl

/-- The only pair in the text. -/
theorem findPairs_plussed (htable : IsPlain table) (hfield : IsPlain field) :
    (pairPattern "::").findPairs (fieldKey (plussed table) field).toList =
      [(table.toList, field.toList)] := by
  rw [toList_reference, pairPattern_eq]
  exact findPairs_joinedNames (by decide) htable.toList_ne_nil
    (fun c hc => isTableName_of_isName (isName_of_isIdentifier (htable.2 c hc)))
    hfield.toList_ne_nil (fun c hc => isName_of_isIdentifier (hfield.2 c hc)) (by decide)

/-! ## Keys -/

theorem plussed_ne_self (table : String) : plussed table ≠ table := by
  intro h
  have hlength := congrArg (·.toList.length) h
  simp [plussed] at hlength

theorem fieldKey_inj {table table' : String} :
    fieldKey table field = fieldKey table' field ↔ table = table' := by
  simp [fieldKey, ← String.toList_inj]

/-- The table without the plus sign leads to the one with it only as its occurrence. -/
theorem nearKey?_plussed_iff (hfield : s.hasField (plussed table) field = true) :
    s.nearKey? table field = some (fieldKey (plussed table) field) ↔
      s.occurrences.get? table = some (plussed table) := by
  have hne := plussed_ne_self table
  have hbase : s.base table = plussed table ↔ s.occurrences.get? table = some (plussed table) := by
    rw [Scope.base, Catalog.base, Register.getD]
    cases s.occurrences.get? table with
    | none => simp [hne.symm]
    | some base => simp
  rw [← hbase, Scope.nearKey?, Scope.key?]
  constructor
  · intro h
    split at h
    · rename_i key hkey
      split at hkey
      · obtain rfl := Option.some.inj hkey
        exact fieldKey_inj.mp (Option.some.inj h)
      · cases hkey
    · split at h
      · exact absurd (fieldKey_inj.mp (Option.some.inj h)).symm hne
      · cases h
  · intro h
    rw [h, if_pos hfield]

/-! ## The other ways to find a field -/

theorem not_mem_reference (htable : IsPlain table) (hfield : IsPlain field) {c : Char}
    (hc : isIdentifier c = false) (hsigns : c ∉ ['+', ':']) :
    c ∉ (fieldKey (plussed table) field).toList := by
  have hplain : ∀ {name : String}, IsPlain name → c ∉ name.toList := fun hname hmem => by
    rw [hname.2 c hmem] at hc
    cases hc
  rw [toList_reference]
  simp only [List.mem_cons, List.not_mem_nil, or_false, not_or] at hsigns
  simp [hsigns, hplain htable, hplain hfield]

/-- No pair is written with a dot. -/
theorem dottedUses_plussed (htable : IsPlain table) (hfield : IsPlain field) (context : String) :
    dottedUses s context (fieldKey (plussed table) field).toList = [] := by
  have hreads : ∀ {before cs after gs}, (pairPattern ".").Reads before cs after gs → '.' ∈ cs := by
    intro before cs after gs h
    obtain ⟨xs, ys, gs', rfl, -, -, h⟩ :=
      (reads_group_then fun _ _ _ _ => reads_oneOrMore).mp h
    exact List.mem_append_right xs (mem_of_reads_text_then (by decide) h)
  rw [dottedUses, findPairs_eq_nil_of_not_mem hreads
    (not_mem_reference htable hfield (by decide) (by decide))]
  rfl

/-- The table of global values has another name. -/
theorem key_ne_of_mem_globalUses {context : String} {cs : List Char} {u : Use}
    (hu : u ∈ globalUses s context cs) : u.key ≠ fieldKey (plussed table) field := by
  have hglobal : ∀ name ∈ globalTables, name.toList.head? ≠ some '+' ∧ name.toList ≠ [] := by decide
  rw [globalUses] at hu
  split at hu
  · obtain ⟨f, -, hu⟩ := List.mem_filterMap.mp hu
    obtain ⟨name, hname, rfl⟩ := Option.map_eq_some_iff.mp hu
    obtain ⟨hplus, hne⟩ := hglobal name (List.mem_of_find?_eq_some hname)
    intro hkey
    have hhead := congrArg (·.toList.head?) hkey
    rw [toList_reference] at hhead
    obtain ⟨c, cs, hcs⟩ := List.exists_cons_of_ne_nil hne
    simp only [fieldKey, String.toList_append, hcs, List.cons_append, List.head?_cons] at hhead hplus
    exact hplus hhead
  · cases hu

/-- Fields are found by name in a placeholder. -/
theorem exists_placeholderUses_iff (hknown : s.hasField (plussed table) field = true)
    {context : String} :
    (∃ u ∈ placeholderUses s context (fieldKey (plussed table) field).toList,
      u.key = fieldKey (plussed table) field) ↔
      IsPlaceholder (fieldKey (plussed table) field) := by
  have hpair : (plussed table, field) ∈ s.pairs := by
    rw [Scope.hasField] at hknown
    split at hknown
    · rename_i fs hfs
      exact List.mem_flatMap.mpr ⟨_, Register.mem_of_lookup hfs,
        List.mem_map_of_mem (Register.mem_names_iff.mpr hknown)⟩
    · cases hknown
  have hpart : hasPart field.toList (fieldKey (plussed table) field).toList = true := by
    rw [hasPart_iff, toList_reference]
    exact ⟨'+' :: (table.toList ++ "::".toList), [], by simp⟩
  rw [placeholderUses]
  split
  · rename_i hwords
    refine iff_of_true ⟨_, List.mem_filterMap.mpr ⟨_, hpair, if_pos hpart⟩, rfl⟩ ?_
    exact Bool.or_eq_true_iff.mp hwords
  · rename_i hwords
    refine iff_of_false (by simp) fun hplaceholder => hwords ?_
    exact Bool.or_eq_true_iff.mpr hplaceholder

/-- A text without the mark of a tag has no markup in it. -/
theorem markupUses_eq_nil {cs : List Char} (h : '<' ∉ cs) (context : String) :
    chunkUses s context cs = [] ∧ idUses s context cs = [] ∧ fieldRefUses s context cs = [] ∧
      elementUses s context cs = [] ∧ mergeUses s context cs = [] := by
  refine ⟨?_, ?_, ?_, ?_, ?_⟩
  · rw [chunkUses, chunkPattern, findPairs_eq_nil_of_not_mem
      (mem_of_reads_text_then (s := "<Chunk") (by decide)) h]
    rfl
  · rw [idUses, fieldIdPattern, findFirst_eq_nil_of_not_mem
      (mem_of_reads_text_then (s := "<Field ") (by decide)) h]
    rfl
  · rw [fieldRefUses, fieldRefPattern, findPairs_eq_nil_of_not_mem
      (mem_of_reads_text_then (s := "<Chunk type=\"FieldRef\">") (by decide)) h]
    rfl
  · rw [elementUses, fieldElementPattern, findPairs_eq_nil_of_not_mem
      (mem_of_reads_text_then (s := "<Field ") (by decide)) h]
    rfl
  · rw [mergeUses, mergeNames, mergePattern, findFirst_eq_nil_of_not_mem
      (mem_of_reads_text_then (s := "<<") (by decide)) h]
    rfl

/-- What a calculation uses that is a reference behind a plus sign. -/
theorem exists_calculationUses_plussed_iff (htable : IsPlain table) (hfield : IsPlain field)
    (hknown : s.hasField (plussed table) field = true) {context : String} :
    (∃ u ∈ calculationUses s none context (fieldKey (plussed table) field),
      u.key = fieldKey (plussed table) field) ↔
      s.occurrences.get? table = some (plussed table) ∨
        IsPlaceholder (fieldKey (plussed table) field) := by
  have hopen : '<' ∉ (fieldKey (plussed table) field).toList :=
    not_mem_reference htable hfield (by decide) (by decide)
  have hqualified : (∃ u ∈ qualifiedUses s context (fieldKey (plussed table) field).toList,
      u.key = fieldKey (plussed table) field) ↔
        s.nearKey? table field = some (fieldKey (plussed table) field) := by
    rw [qualifiedUses, findPairs_plussed htable hfield]
    simp only [pairUses, List.filterMap_cons, List.filterMap_nil, String.ofList_toList]
    cases s.nearKey? table field with
    | none => simp
    | some key => simp
  obtain ⟨hchunks, hids, hrefs, helements, hmerges⟩ := markupUses_eq_nil (s := s) hopen context
  have hempty : ¬ (fieldKey (plussed table) field).toList.isEmpty = true := by
    rw [toList_reference]
    exact Bool.false_ne_true
  have hown : ownUses s none context (fieldKey (plussed table) field).toList = [] := rfl
  -- the text has no markup and no dot in it, so that three of the ten stages are left
  have hstages : calculationUses s none context (fieldKey (plussed table) field) =
      qualifiedUses s context (fieldKey (plussed table) field).toList ++
        globalUses s context (fieldKey (plussed table) field).toList ++
        placeholderUses s context (fieldKey (plussed table) field).toList := by
    rw [calculationUses, if_neg hempty, hown, dottedUses_plussed htable hfield, hchunks, hids, hrefs,
      helements, hmerges]
    simp only [List.append_nil]
  rw [hstages]
  simp only [List.mem_append, or_and_right, exists_or, hqualified, nearKey?_plussed_iff hknown,
    exists_placeholderUses_iff hknown]
  refine or_congr_left (or_iff_left ?_)
  rintro ⟨u, hu, hkey⟩
  exact key_ne_of_mem_globalUses hu hkey

/-! ## The report -/

/-- A field is used by something else than calculations of the given text. -/
def UsedBeside (s : Scope) (root : Site) (t key : String) : Prop :=
  ∃ uses, usesOnLayouts s root = .ok uses ∧ ∃ u ∈ uses ++ otherUses s root, u.key = key ∧
    ∀ context, u ∉ calculationUses s none context t

/-- A field that a step names with a plus sign before its table is counted only if the name of the
table without it is an occurrence of the table, the text is taken for a placeholder, or something else
uses the field. -/
theorem counted_plussed_iff {root : Site} {raw : String} {uses : List Use} (htable : IsPlain table)
    (hfield : IsPlain field) (hopen : openDocument "findall" raw = .ok root)
    (hlayouts : usesOnLayouts (scopeAt root) root = .ok uses)
    (hknown : (fieldsAt root).hasField (plussed table) field = true)
    (hstep : InStep root (fieldKey (plussed table) field)) :
    Counted raw (plussed table) field ↔
      (declaredOccurrences root).get? table = some (plussed table) ∨
        IsPlaceholder (fieldKey (plussed table) field) ∨
        UsedBeside (scopeAt root) root (fieldKey (plussed table) field)
          (fieldKey (plussed table) field) := by
  have hnoted : ∀ {context : String}, (∃ u ∈ calculationUses (scopeAt root) none context
      (fieldKey (plussed table) field), u.key = fieldKey (plussed table) field) ↔
        (declaredOccurrences root).get? table = some (plussed table) ∨
          IsPlaceholder (fieldKey (plussed table) field) :=
    exists_calculationUses_plussed_iff htable hfield (hasField_scopeAt hknown)
  rw [counted_iff hopen hlayouts hknown, ← or_assoc]
  constructor
  · rintro ⟨u, hu, hkey⟩
    -- a use may be one of this text in another step, which cannot tell more than the one at hand
    by_cases hown : ∃ context, u ∈ calculationUses (scopeAt root) none context
        (fieldKey (plussed table) field)
    · obtain ⟨context, hown⟩ := hown
      exact .inl (hnoted.mp ⟨u, hown, hkey⟩)
    · exact .inr ⟨uses, hlayouts, u, hu, hkey, not_exists.mp hown⟩
  · rintro (hleads | ⟨uses', huses', u, hu, hkey, -⟩)
    · obtain ⟨u, hu, hkey⟩ := exists_otherUses_of_inStep hstep fun _ => hnoted.mpr hleads
      exact ⟨u, List.mem_append_right _ hu, hkey⟩
    · obtain rfl := Except.ok.inj (hlayouts.symm.trans huses')
      exact ⟨u, hu, hkey⟩

end DesignAudit.FieldUse
