import DesignAudit.Proofs.FieldUse.Report
import DesignAudit.Proofs.Query.Extraction

/-!
# Fields that the audit of fields finds in queries

A query is searched for the fields of each table that it reads from: behind the table and a dot, or at
one of the places for fields, where only the name counts and not the table (`Finds`). Such a place is
the same as for the audit of queries (`exists_occursIn_namePlaces_iff`), so that the two audits differ
only in which places they look at. Over a whole document `exists_usesInQueries_iff` says which fields
are found.
-/

namespace DesignAudit.FieldUse

open Markup Text Text.Pattern
open Query

/-! ## Places -/

section Places

variable {query : List Char} {field : String}

theorem occursIn_comparedName {keyword : String} :
    (comparedName keyword field).occursIn query = true ↔
      ∃ name, Spells field name ∧ ComparedAfter keyword query name := by
  rw [occursIn_iff]
  simp only [comparedName, reads_word_then, reads_gap_then, reads_blanks_then, reads_one_then,
    reads_all_nil]
  constructor
  · rintro ⟨pre, _, post, _, rfl, k, _, rfl, hk, s, _, rfl, hs, name, _, rfl, hname, b, _, rfl, hb,
      _, _, rfl, ⟨c, hc, rfl⟩, rfl, rfl⟩
    exact ⟨name, hname, pre, k, s, b, c, post, by simp, hk, hs, hb, List.contains_iff_mem.mp hc⟩
  · rintro ⟨name, hname, pre, k, s, b, c, post, rfl, hk, hs, hb, hc⟩
    exact ⟨pre, _, post, [], by simp, k, _, rfl, hk, s, _, rfl, hs, name, _, rfl, hname, b, _, rfl,
      hb, [c], [], rfl, ⟨c, List.contains_iff_mem.mpr hc, rfl⟩, rfl, rfl⟩

/-- Blanks and then a comma or the word that names the table: this is where an item ends. -/
theorem reads_selectedEnd {before : Option Char} {e after : List Char} {gs : List (List Char)} :
    (all [blanks, alt (text ",") (all [gap, word "FROM"])]).Reads before e after gs ↔
      EndsItem e ∧ gs = [] := by
  have htail : ∀ before e after gs, (alt (text ",") (all [gap, word "FROM"])).Reads before e after gs ↔
      (e = [','] ∨ ∃ s w, e = s ++ w ∧ IsGap s ∧ Spells "FROM" w) ∧ gs = [] := by
    intro before e after gs
    rw [Reads, reads_text]
    simp only [reads_gap_then, reads_word_then, reads_all_nil]
    constructor
    · rintro (⟨rfl, rfl⟩ | ⟨s, _, rfl, hs, w, _, rfl, hw, rfl, rfl⟩)
      · exact ⟨.inl rfl, rfl⟩
      · exact ⟨.inr ⟨s, w, by simp, hs, hw⟩, rfl⟩
    · rintro ⟨rfl | ⟨s, w, rfl, hs, hw⟩, rfl⟩
      · exact .inl ⟨rfl, rfl⟩
      · exact .inr ⟨s, w, rfl, hs, w, [], (List.append_nil w).symm, hw, rfl, rfl⟩
  simp only [reads_blanks_then, reads_then htail, reads_all_nil]
  constructor
  · rintro ⟨b, _, rfl, hb, _, _, rfl, rfl | ⟨s, w, rfl, hs, hw⟩, rfl, rfl⟩
    · exact ⟨.inl ⟨b, rfl, hb⟩, rfl⟩
    · -- the blanks before the gap belong to the gap
      refine ⟨.inr ⟨b ++ s, w, by simp, ⟨?_, ?_⟩, hw⟩, rfl⟩
      · exact List.append_ne_nil_of_right_ne_nil b hs.1
      · exact List.forall_mem_append.mpr ⟨hb, hs.2⟩
  · rintro ⟨⟨b, rfl, hb⟩ | ⟨s, w, rfl, hs, hw⟩, rfl⟩
    · exact ⟨b, [','], rfl, hb, [','], [], rfl, .inl rfl, rfl, rfl⟩
    · exact ⟨[], s ++ w, rfl, List.forall_mem_nil _, s ++ w, [], (List.append_nil _).symm,
        .inr ⟨s, w, rfl, hs, hw⟩, rfl, rfl⟩

theorem occursIn_selectedName :
    (all [word "SELECT", gap, word field, blanks,
      alt (text ",") (all [gap, word "FROM"])]).occursIn query = true ↔
      ∃ name, Spells field name ∧ SelectedFirst EndsItem query name := by
  rw [occursIn_iff]
  simp only [reads_word_then, reads_gap_then, reads_selectedEnd]
  constructor
  · rintro ⟨pre, _, post, _, rfl, k, _, rfl, hk, s, _, rfl, hs, name, e, rfl, hname, he, rfl⟩
    exact ⟨name, hname, pre, k, s, e, post, by simp, hk, hs, he⟩
  · rintro ⟨name, hname, pre, k, s, e, post, rfl, hk, hs, he⟩
    exact ⟨pre, _, post, [], by simp, k, _, rfl, hk, s, _, rfl, hs, name, e, rfl, hname, he, rfl⟩

theorem occursIn_sortedName {keyword : String} :
    (all [word keyword, gap, word "BY", gap, word field]).occursIn query = true ↔
      ∃ name, Spells field name ∧ SortedBy keyword query name := by
  rw [occursIn_iff]
  simp only [reads_word_then, reads_gap_then, reads_all_nil]
  constructor
  · rintro ⟨pre, _, post, _, rfl, k, _, rfl, hk, s, _, rfl, hs, w, _, rfl, hw, s', _, rfl, hs', name,
      _, rfl, hname, rfl, rfl⟩
    exact ⟨name, hname, pre, k, s, w, s', post, by simp, hk, hs, hw, hs'⟩
  · rintro ⟨name, hname, pre, k, s, w, s', post, rfl, hk, hs, hw, hs'⟩
    exact ⟨pre, _, post, [], by simp, k, _, rfl, hk, s, _, rfl, hs, w, _, rfl, hw, s', _, rfl, hs',
      name, [], rfl, hname, rfl, rfl⟩

/-- A field is looked for at the places where a field can stand, letters compared without regard to
case. -/
theorem exists_occursIn_namePlaces_iff :
    (∃ place ∈ namePlaces field, place.2.occursIn query = true) ↔
      ∃ name, Spells field name ∧ StandsIn query name := by
  simp only [namePlaces, List.exists_mem_cons_iff, List.not_mem_nil, false_and, exists_false,
    or_false, occursIn_comparedName, occursIn_selectedName, occursIn_sortedName]
  constructor
  · rintro (⟨name, hname, h⟩ | ⟨name, hname, h⟩ | ⟨name, hname, h⟩ | ⟨name, hname, h⟩ |
      ⟨name, hname, h⟩ | ⟨name, hname, h⟩)
    · exact ⟨name, hname, .compared (by decide) h⟩
    · exact ⟨name, hname, .compared (by decide) h⟩
    · exact ⟨name, hname, .compared (by decide) h⟩
    · exact ⟨name, hname, .selected h⟩
    · exact ⟨name, hname, .sorted (by decide) h⟩
    · exact ⟨name, hname, .sorted (by decide) h⟩
  · rintro ⟨name, hname, h⟩
    cases h with
    | compared known h =>
      simp only [List.mem_cons, List.not_mem_nil, or_false] at known
      rcases known with rfl | rfl | rfl
      · exact .inl ⟨name, hname, h⟩
      · exact .inr (.inl ⟨name, hname, h⟩)
      · exact .inr (.inr (.inl ⟨name, hname, h⟩))
    | selected h => exact .inr (.inr (.inr (.inl ⟨name, hname, h⟩)))
    | sorted known h =>
      simp only [List.mem_cons, List.not_mem_nil, or_false] at known
      rcases known with rfl | rfl
      · exact .inr (.inr (.inr (.inr (.inl ⟨name, hname, h⟩))))
      · exact .inr (.inr (.inr (.inr (.inr ⟨name, hname, h⟩))))

end Places

/-! ## The fields of a query -/

/-- A query that reads from a table names a field of it: behind the table and a dot, or at a place for
fields, in letters of any case. -/
def Finds (query : List Char) (table field : String) : Prop :=
  Dotted query table.toList field.toList ∨ ∃ name, Spells field name ∧ StandsIn query name

theorem exists_tableQueryUses_iff {s : Scope} (context : String) {table key : String}
    {query : List Char} :
    (∃ u ∈ tableQueryUses s context query table, u.key = key) ↔
      ∃ field ∈ s.fieldsOf (s.base table), fieldKey (s.base table) field = key ∧
        Finds query table field := by
  have hdotted : ∀ field : String, hasPart (table ++ "." ++ field).toList query = true ↔
      Dotted query table.toList field.toList := by
    intro field
    rw [hasPart_iff, Dotted, String.toList_append, String.toList_append, List.append_assoc]
    rfl
  simp only [tableQueryUses, Finds, ← hdotted, ← exists_occursIn_namePlaces_iff, List.mem_flatMap]
  constructor
  · rintro ⟨u, ⟨field, hfield, hu⟩, rfl⟩
    refine ⟨field, hfield, ?_⟩
    rcases List.mem_append.mp hu with hu | hu
    · split at hu
      · rename_i hpart
        rw [List.mem_singleton] at hu
        exact ⟨hu ▸ rfl, .inl hpart⟩
      · cases hu
    · obtain ⟨place, hplace, hu⟩ := List.mem_filterMap.mp hu
      rw [Option.ite_none_right_eq_some] at hu
      obtain ⟨hoccurs, hu⟩ := hu
      exact ⟨(Option.some.inj hu) ▸ rfl, .inr ⟨place, hplace, hoccurs⟩⟩
  · rintro ⟨field, hfield, rfl, hpart | ⟨⟨label, pattern⟩, hplace, hoccurs⟩⟩
    · refine ⟨⟨fieldKey (s.base table) field, .query, "SQL - " ++ context⟩,
        ⟨field, hfield, List.mem_append_left _ ?_⟩, rfl⟩
      rw [if_pos hpart, List.mem_singleton]
    · exact ⟨⟨fieldKey (s.base table) field, .query, s!"SQL ({label}) - {context}"⟩,
        ⟨field, hfield, List.mem_append_right _
          (List.mem_filterMap.mpr ⟨(label, pattern), hplace, if_pos hoccurs⟩)⟩, rfl⟩

/-! ## The fields of all queries -/

/-- The text of a calculation that mentions a query, among the calculations below a node. -/
def IsQueryText (root : Site) (t : String) : Prop :=
  ∃ c ∈ root.all "Calculation", c.node.text = some t ∧ has "ExecuteSQL" t = true

/-- A query of a calculation names a field, under the joined name of the field and the base table of
a table that the query reads from. -/
def Names (s : Scope) (calculation : List Char) (key : String) : Prop :=
  ∃ query ∈ queries calculation, ∃ table ∈ fromTables query,
    ∃ field ∈ s.fieldsOf (s.base table), fieldKey (s.base table) field = key ∧
      Finds query table field

/-- Some query of the document names a field. -/
def NamedInQueries (s : Scope) (root : Site) (key : String) : Prop :=
  ∃ t, IsQueryText root t ∧ Names s t.toList key

theorem exists_queryUses_iff {s : Scope} (context : String) {key : String}
    {calculation : List Char} :
    (∃ u ∈ queryUses s context calculation, u.key = key) ↔ Names s calculation key := by
  simp only [queryUses, Names, List.mem_flatMap]
  constructor
  · rintro ⟨u, ⟨query, hquery, table, htable, hu⟩, hkey⟩
    exact ⟨query, hquery, table, htable, (exists_tableQueryUses_iff context).mp ⟨u, hu, hkey⟩⟩
  · rintro ⟨query, hquery, table, htable, hfound⟩
    obtain ⟨u, hu, hkey⟩ := (exists_tableQueryUses_iff context).mpr hfound
    exact ⟨u, ⟨query, hquery, table, htable, hu⟩, hkey⟩

/-- The uses in queries are those of the fields that the queries name. -/
theorem exists_usesInQueries_iff {s : Scope} {root : Site} {key : String} :
    (∃ u ∈ usesInQueries s root, u.key = key) ↔ NamedInQueries s root key := by
  simp only [usesInQueries, NamedInQueries, IsQueryText, List.mem_flatMap]
  constructor
  · rintro ⟨u, ⟨c, hc, hu⟩, hkey⟩
    split at hu
    · rename_i t ht
      obtain ⟨htext, hhas⟩ := Option.filter_eq_some_iff.mp ht
      exact ⟨t, ⟨c, hc, htext, hhas⟩, (exists_queryUses_iff _).mp ⟨u, hu, hkey⟩⟩
    · cases hu
  · rintro ⟨t, ⟨c, hc, htext, hhas⟩, hnames⟩
    have hfilter : c.node.text.filter (has "ExecuteSQL") = some t :=
      Option.filter_eq_some_iff.mpr ⟨htext, hhas⟩
    obtain ⟨u, hu, hkey⟩ := (exists_queryUses_iff (queryContext 10 c.above)).mpr hnames
    refine ⟨u, ⟨c, hc, ?_⟩, hkey⟩
    rw [hfilter]
    exact hu

/-- The uses of fields outside of layouts and of queries. -/
def usesOutsideQueries (s : Scope) (root : Site) : List Use :=
  usesInScripts s root ++ usesInFields s root ++ usesInFunctions s root ++
  usesInRelationships s root ++ usesInValueLists s root ++ usesInTexts s root

theorem mem_otherUses_iff {s : Scope} {root : Site} {u : Use} :
    u ∈ otherUses s root ↔ u ∈ usesOutsideQueries s root ∨ u ∈ usesInQueries s root := by
  simp only [otherUses, usesOutsideQueries, List.mem_append]
  -- three kinds of uses come after those in queries
  iterate 3 rw [or_right_comm (b := u ∈ usesInQueries s root)]

end DesignAudit.FieldUse
