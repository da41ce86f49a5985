import DesignAudit.FieldUse.Audit
import DesignAudit.FieldUse.Usage
import DesignAudit.Proofs.FieldUse.Pairs

/-!
# What a calculation adds to the notes

A search of a calculation adds descriptions at the end of the notes and changes nothing else, however
the notes stood before (`texts_search`, `get?_search`). What it adds is added for declared fields, as
uses in calculations, and described as the calculation is, with one of a few suffixes
(`found_of_mem_uses`). So it does not matter in which order calculations are searched
(`search_appends_to_known_fields`).

A field that is named with its table, apart from other names, is always noted
(`delimited_reference_noted`).
-/

namespace DesignAudit.FieldUse

open Text Text.Pattern

/-! ## Notes of uses -/

/-- The descriptions that uses give of one field in one kind of place. -/
def textsOf (uses : List Use) (key : String) (place : Place) : List String :=
  (uses.filter fun u => u.key == key && u.place == place).map Use.text

theorem textsOf_cons (u : Use) (uses : List Use) (key : String) (place : Place) :
    textsOf (u :: uses) key place =
      (if u.key = key ∧ u.place = place then [u.text] else []) ++ textsOf uses key place := by
  rw [textsOf, textsOf, List.filter_cons]
  by_cases h : u.key = key ∧ u.place = place
  · simp [h.1, h.2]
  · have hfalse : (u.key == key && u.place == place) = false := by
      simpa only [Bool.and_eq_false_iff, beq_eq_false_iff_ne, ne_eq, ← not_and_or] using h
    simp [hfalse, h]

theorem mem_textsOf {uses : List Use} {key : String} {place : Place} {text : String} :
    text ∈ textsOf uses key place ↔ ⟨key, place, text⟩ ∈ uses := by
  simp only [textsOf, List.mem_map, List.mem_filter, Bool.and_eq_true, beq_iff_eq]
  constructor
  · rintro ⟨u, ⟨hu, rfl, rfl⟩, rfl⟩
    exact hu
  · intro h
    exact ⟨_, ⟨h, rfl, rfl⟩, rfl⟩

namespace Usage

theorem texts_record (m : Usage) (u : Use) (key : String) (place : Place) :
    (m.record u).texts key place =
      m.texts key place ++ if u.key = key ∧ u.place = place then [u.text] else [] := by
  rw [texts, record, Register.getD, Register.get?_update]
  by_cases hkey : key = u.key
  · subst hkey
    rw [if_pos rfl, Option.getD_some, Notes.add, texts]
    by_cases hplace : place = u.place
    · simp [hplace]
    · simp [hplace, Ne.symm hplace]
  · simp [hkey, Ne.symm hkey, texts, Register.getD]

/-- Uses add their descriptions at the end, in their order. -/
theorem texts_recordAll (m : Usage) (uses : List Use) (key : String) (place : Place) :
    (m.recordAll uses).texts key place = m.texts key place ++ textsOf uses key place := by
  induction uses generalizing m with
  | nil => simp [recordAll, textsOf]
  | cons u uses ih =>
    have hcons : m.recordAll (u :: uses) = (m.record u).recordAll uses := rfl
    rw [hcons, ih, texts_record, textsOf_cons, List.append_assoc]

/-- The notes of a field stand as they were if no use is of the field. -/
theorem get?_recordAll {uses : List Use} {key : String} (h : ∀ u ∈ uses, u.key ≠ key) (m : Usage) :
    (m.recordAll uses).notes.get? key = m.notes.get? key := by
  induction uses generalizing m with
  | nil => rfl
  | cons u uses ih =>
    rw [List.forall_mem_cons] at h
    have hcons : m.recordAll (u :: uses) = (m.record u).recordAll uses := rfl
    rw [hcons, ih h.2, record, Register.get?_update, if_neg h.1.symm]

theorem texts_search (m : Usage) (c : Calculation) (key : String) (place : Place) :
    (m.search c).texts key place = m.texts key place ++ textsOf c.uses key place :=
  texts_recordAll m c.uses key place

/-- Searching calculations notes all the uses that they make. -/
theorem searchAll_eq (m : Usage) (cs : List Calculation) :
    m.searchAll cs = m.recordAll (cs.flatMap Calculation.uses) := by
  rw [recordAll, List.foldl_flatMap]
  rfl

/-- Several calculations add what each of them adds, one after the other. -/
theorem texts_searchAll (m : Usage) (cs : List Calculation) (key : String) (place : Place) :
    (m.searchAll cs).texts key place =
      m.texts key place ++ cs.flatMap fun c => textsOf c.uses key place := by
  induction cs generalizing m with
  | nil => simp [searchAll]
  | cons c cs ih =>
    have hcons : m.searchAll (c :: cs) = (m.search c).searchAll cs := rfl
    rw [hcons, ih, texts_search, List.flatMap_cons, List.append_assoc]

end Usage

/-- The row of a field shows what its uses leave in the notes. -/
theorem rowOf_at (cached : List String) (counts : Register Nat) (uses : List Use)
    (table field : String) (place : Place) :
    (rowOf cached counts uses table field).at place =
      (Usage.recordAll {} uses).texts (fieldKey table field) place := by
  have hempty : ({} : Usage).texts (fieldKey table field) place = [] := rfl
  rw [Usage.texts_recordAll, hempty, List.nil_append, Row.at, rowOf, List.filter_filter, textsOf]
  simp only [Bool.and_comm]

/-! ## What is found -/

/-- What may follow the description of a calculation in the description of a use. -/
def suffixes : List String :=
  ["", " (DisplayCalculation)", " (Field ID)", " (PlaceholderText)", " (FieldRef)",
   " (XML Reference)", " (Merge Field)"]

/-- A use of a declared field in a calculation, under the given description. -/
structure Use.Found (s : Scope) (text : String) (u : Use) : Prop where
  place : u.place = .calculation
  declared : ∃ table field, (table, field) ∈ s.pairs ∧ u.key = fieldKey table field
  text : u.text = text

section Found

variable {s : Scope} {context : String} {cs : List Char} {u : Use}

theorem mem_pairs_of_mem_entries {table field : String} {fs : Register (Option String)}
    (hfs : (table, fs) ∈ s.fields.entries) (hfield : field ∈ fs.names) :
    (table, field) ∈ s.pairs :=
  List.mem_flatMap.mpr ⟨_, hfs, List.mem_map_of_mem hfield⟩

theorem mem_pairs_of_mem_fieldsOf {table field : String} (h : field ∈ s.fieldsOf table) :
    (table, field) ∈ s.pairs := by
  rw [Scope.fieldsOf] at h
  split at h
  · rename_i fs hfs
    exact mem_pairs_of_mem_entries (Register.mem_of_lookup hfs) h
  · cases h

theorem mem_pairs_of_hasField {table field : String} (h : s.hasField table field = true) :
    (table, field) ∈ s.pairs := by
  rw [Scope.hasField] at h
  split at h
  · rename_i fs hfs
    exact mem_pairs_of_mem_entries (Register.mem_of_lookup hfs) (Register.mem_names_iff.mpr h)
  · cases h

/-- Whichever way a name leads to a field, the field is declared. -/
theorem declared_of_nearKey? {table field key : String} (h : s.nearKey? table field = some key) :
    ∃ table field, (table, field) ∈ s.pairs ∧ key = fieldKey table field := by
  rw [Scope.nearKey?, Scope.key?] at h
  by_cases hbase : s.hasField (s.base table) field = true
  · simp only [hbase, if_true, Option.some.injEq] at h
    exact ⟨_, _, mem_pairs_of_hasField hbase, h.symm⟩
  · simp only [hbase, if_false, Option.ite_none_right_eq_some, Option.some.injEq,
      Bool.false_eq_true] at h
    exact ⟨_, _, mem_pairs_of_hasField h.1, h.2.symm⟩

theorem found_of_mem_pairUses {pairs : List (List Char × List Char)}
    (h : u ∈ pairUses s context pairs) : u.Found s context := by
  obtain ⟨⟨table, field⟩, -, h⟩ := List.mem_filterMap.mp h
  obtain ⟨key, hkey, rfl⟩ := Option.map_eq_some_iff.mp h
  exact ⟨rfl, declared_of_nearKey? hkey, rfl⟩

theorem found_of_mem_ownUses {table : Option String} (h : u ∈ ownUses s table context cs) :
    u.Found s context := by
  rw [ownUses] at h
  split at h
  · cases h
  · obtain ⟨field, hfield, h⟩ := List.mem_filterMap.mp h
    obtain ⟨-, ⟨⟩⟩ := Option.ite_none_right_eq_some.mp h
    exact ⟨rfl, ⟨_, _, mem_pairs_of_mem_fieldsOf hfield, rfl⟩, rfl⟩

theorem found_of_mem_globalUses (h : u ∈ globalUses s context cs) : u.Found s context := by
  rw [globalUses] at h
  split at h
  · obtain ⟨field, -, h⟩ := List.mem_filterMap.mp h
    obtain ⟨table, htable, rfl⟩ := Option.map_eq_some_iff.mp h
    have hfield := List.find?_some htable
    exact ⟨rfl, ⟨_, _, mem_pairs_of_hasField hfield, rfl⟩, rfl⟩
  · cases h

theorem found_of_mem_idUses (h : u ∈ idUses s context cs) :
    u.Found s (context ++ " (Field ID)") := by
  simp only [idUses] at h
  split at h
  · cases h
  · obtain ⟨⟨table, fs⟩, hfs, h⟩ := List.mem_flatMap.mp h
    obtain ⟨⟨field, id⟩, hfield, h⟩ := List.mem_filterMap.mp h
    obtain ⟨-, ⟨⟩⟩ := Option.ite_none_right_eq_some.mp h
    exact ⟨rfl, ⟨_, _, mem_pairs_of_mem_entries hfs (List.mem_map_of_mem hfield), rfl⟩, rfl⟩

theorem found_of_mem_placeholderUses (h : u ∈ placeholderUses s context cs) :
    u.Found s (context ++ " (PlaceholderText)") := by
  rw [placeholderUses] at h
  split at h
  · obtain ⟨⟨table, field⟩, hpair, h⟩ := List.mem_filterMap.mp h
    obtain ⟨-, ⟨⟩⟩ := Option.ite_none_right_eq_some.mp h
    exact ⟨rfl, ⟨_, _, hpair, rfl⟩, rfl⟩
  · cases h

theorem found_of_mem_mergeUses (h : u ∈ mergeUses s context cs) :
    u.Found s (context ++ " (Merge Field)") := by
  obtain ⟨field, -, h⟩ := List.mem_flatMap.mp h
  obtain ⟨⟨table, fs⟩, hfs, h⟩ := List.mem_filterMap.mp h
  obtain ⟨hfield, ⟨⟩⟩ := Option.ite_none_right_eq_some.mp h
  exact ⟨rfl, ⟨_, _, mem_pairs_of_mem_entries hfs (Register.mem_names_iff.mpr hfield), rfl⟩, rfl⟩

end Found

/-- Each way to search a calculation finds declared fields only, and has its own suffix. -/
theorem found_of_mem_uses {c : Calculation} {u : Use} (h : u ∈ c.uses) :
    ∃ suffix ∈ suffixes, u.Found c.scope (c.context ++ suffix) := by
  have hplain : u.Found c.scope c.context → ∃ suffix ∈ suffixes,
      u.Found c.scope (c.context ++ suffix) :=
    fun hfound => ⟨"", by decide, by rwa [String.append_empty]⟩
  rw [Calculation.uses, calculationUses] at h
  split at h
  · cases h
  · simp only [List.mem_append, or_assoc] at h
    rcases h with h | h | h | h | h | h | h | h | h | h
    · exact hplain (found_of_mem_pairUses h)
    · exact hplain (found_of_mem_ownUses h)
    · exact hplain (found_of_mem_pairUses h)
    · exact hplain (found_of_mem_globalUses h)
    · exact ⟨_, by decide, found_of_mem_pairUses h⟩
    · exact ⟨_, by decide, found_of_mem_idUses h⟩
    · exact ⟨_, by decide, found_of_mem_placeholderUses h⟩
    · exact ⟨_, by decide, found_of_mem_pairUses h⟩
    · exact ⟨_, by decide, found_of_mem_pairUses h⟩
    · exact ⟨_, by decide, found_of_mem_mergeUses h⟩

/-- A search notes nothing outside of calculations. -/
theorem textsOf_uses_of_ne {place : Place} (h : place ≠ .calculation) (c : Calculation)
    (key : String) : textsOf c.uses key place = [] := by
  refine List.eq_nil_iff_forall_not_mem.mpr fun text htext => ?_
  obtain ⟨suffix, -, hfound⟩ := found_of_mem_uses (mem_textsOf.mp htext)
  exact h hfound.place

/-- The notes of a field stand as they were if a search has no description to add to them. -/
theorem Usage.get?_search {c : Calculation} {key : String}
    (h : textsOf c.uses key .calculation = []) (m : Usage) :
    (m.search c).notes.get? key = m.notes.get? key := by
  refine get?_recordAll (fun u hu hkey => ?_) m
  obtain ⟨suffix, -, hfound⟩ := found_of_mem_uses hu
  have hmem : u.text ∈ textsOf c.uses key .calculation := by
    rw [mem_textsOf, ← hkey, ← hfound.place]
    exact hu
  rw [h] at hmem
  cases hmem

/-- **Searching calculations.** A search of a calculation adds descriptions to the notes, and what it
adds does not depend on the notes. It adds them at the end, for declared fields and as uses in
calculations, and leaves all other notes as they are. Each description is that of the calculation with
one of the suffixes, and every pair of names that leads to a field adds one. Hence in whichever order
calculations are searched, the same descriptions are noted for each field. The notes are what the report
on fields shows of the calculations. -/
theorem search_appends_to_known_fields :
    (∀ c : Calculation, ∃ added : String → List String,
      (∀ (m : Usage) key place, (m.search c).texts key place =
        m.texts key place ++ if place = .calculation then added key else []) ∧
      (∀ (m : Usage) key, added key = [] → (m.search c).notes.get? key = m.notes.get? key) ∧
      (∀ key, ∀ text ∈ added key,
        (∃ table field, (table, field) ∈ c.scope.pairs ∧ key = fieldKey table field) ∧
        ∃ suffix ∈ suffixes, text = c.context ++ suffix) ∧
      ∀ table field key, (table.toList, field.toList) ∈ (pairPattern "::").findPairs c.text.toList →
        c.scope.nearKey? table field = some key → c.context ∈ added key) ∧
    (∀ cs cs' : List Calculation, cs.Perm cs' → ∀ (m : Usage) key place,
      ((m.searchAll cs).texts key place).Perm ((m.searchAll cs').texts key place)) ∧
    ∀ cached counts (cs : List Calculation) table field place,
      (rowOf cached counts (cs.flatMap Calculation.uses) table field).at place =
        (Usage.searchAll {} cs).texts (fieldKey table field) place := by
  refine ⟨fun c => ⟨fun key => textsOf c.uses key .calculation, fun m key place => ?_,
    fun m key h => Usage.get?_search h m, fun key text htext => ?_,
    fun table field key hpair hkey => ?_⟩, fun cs cs' hperm m key place => ?_,
    fun cached counts cs table field place => ?_⟩
  · rw [Usage.texts_search]
    split
    · rename_i hplace
      rw [hplace]
    · rename_i hplace
      rw [textsOf_uses_of_ne hplace]
  · obtain ⟨suffix, hsuffix, hfound⟩ := found_of_mem_uses (mem_textsOf.mp htext)
    exact ⟨hfound.declared, suffix, hsuffix, hfound.text⟩
  · exact mem_textsOf.mpr (mem_calculationUses_of_pair hkey hpair)
  · rw [Usage.texts_searchAll, Usage.texts_searchAll]
    exact (hperm.flatMap_right _).append_left _
  · rw [rowOf_at, Usage.searchAll_eq]

def smallScope : Scope := ⟨⟨[("T", ⟨[("f", some "7")]⟩)]⟩, ⟨[("O", "T")]⟩⟩

/-- Two calculations that use the same field, one of them in several ways. -/
def smallCalculations : List Calculation :=
  [⟨smallScope, some "T", "a", "O::f + <<f>>"⟩, ⟨smallScope, none, "b", "<Field id=\"7\">"⟩]

theorem small_calculations_reversed :
    smallCalculations.Perm smallCalculations.reverse ∧
    ((Usage.searchAll {} smallCalculations).texts "T::f" .calculation).Perm
      ((Usage.searchAll {} smallCalculations.reverse).texts "T::f" .calculation) ∧
    (Usage.searchAll {} smallCalculations).texts "T::f" .calculation =
      ["a", "a", "a (Merge Field)", "b (Field ID)"] :=
  ⟨(List.reverse_perm _).symm,
    search_appends_to_known_fields.2.1 _ _ (List.reverse_perm _).symm {} "T::f" .calculation,
    by decide +kernel⟩

/-! ## References -/

/-- **References that stand apart.** A plain name of a table, a double colon and a plain name of a
field of its base table are noted as a use of the field, whatever stands around them, as long as what
stands before does not end with a character of a table name or a colon, and what stands after does not
begin with a character of a field name. -/
theorem delimited_reference_noted {s : Scope} {table field pre post : String}
    (htable : IsPlain table) (hfield : IsPlain field)
    (hpre : ∀ c ∈ pre.toList.getLast?, isTableName c = false ∧ c ≠ ':')
    (hpost : ∀ c ∈ post.toList.head?, isName c = false)
    (hknown : s.hasField (s.base table) field = true) (own : Option String) (context : String)
    (m : Usage) :
    ∃ added, (m.search ⟨s, own, context, pre ++ table ++ "::" ++ field ++ post⟩).texts
        (fieldKey (s.base table) field) .calculation =
      m.texts (fieldKey (s.base table) field) .calculation ++ added ∧ context ∈ added := by
  have hpair : NamesPair (pre ++ table ++ "::" ++ field ++ post) table field :=
    ⟨pre.toList, post.toList, by simp only [String.toList_append, List.append_assoc], hpre, hpost⟩
  have hkey : s.nearKey? table field = some (fieldKey (s.base table) field) := by
    rw [Scope.nearKey?, Scope.key?, if_pos hknown]
  exact ⟨_, Usage.texts_search m _ _ _,
    mem_textsOf.mpr (mem_calculationUses_of_pair hkey (mem_findPairs htable hfield hpair))⟩

/-- A reference after half of another one and before an umlaut. -/
theorem reference_among_others_noted :
    IsPlain "O" ∧ IsPlain "f" ∧ smallScope.hasField (smallScope.base "O") "f" = true ∧
    ∃ added, (Usage.search {} ⟨smallScope, none, "a", "T:: (" ++ "O" ++ "::" ++ "f" ++ "ä::f"⟩).texts
      "T::f" .calculation = [] ++ added ∧ "a" ∈ added :=
  ⟨by decide, by decide, by decide,
    delimited_reference_noted (s := smallScope) (by decide) (by decide) (by decide) (by decide)
      (by decide) none "a" {}⟩

end DesignAudit.FieldUse
