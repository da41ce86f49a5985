import DesignAudit.Proofs.FieldUse.InQueries
import DesignAudit.Proofs.Markup.Reader
import DesignAudit.Proofs.Query.Report

/-!
# The fields that one audit lists and the other one counts

Two audits read the queries of a document: one lists the fields that a query names, the other one
counts the uses of declared fields. `listed_field_counted_iff` says when a listed field is counted. It
is counted if it is used outside of queries, or if a query names it in a way that the audit of fields
knows. A calculation names each field that it lists in such a way, apart from fields that stand in a
summary function, further on in a list or before a bracket, and apart from fields behind an alias
(`OnlyListed`). A field that is listed for such a reason alone is reported as unused.
-/

namespace DesignAudit.FieldUse

open Markup Text Text.Pattern
open Query

/-! ## What is listed only -/

/-- A text is that of a calculation below a node, blanks around it apart. -/
def IsCalculation (root : Site) (sql : String) : Prop :=
  ∃ t, IsQueryText root t ∧ trim t = sql

/-- The reasons to list a field of a table for which the field is not counted: the places at which only
the audit of queries looks, and a name before the dot that is not read from as an occurrence of the
same table. -/
inductive OnlyListed (s : Scope) (qs : List (List Char)) (table field : String) : Prop where
  | apart {q : List Char} (mem : q ∈ qs) (first : mainTable? q = some table)
      (stands : StandsApart q field.toList)
  | alias {q r : List Char} {nick main : String} (mem : q ∈ qs)
      (behind : Dotted q nick.toList field.toList) (other : r ∈ qs)
      (first : mainTable? r = some main) (means : (aliasesOf main r).get? nick = some table)
      (unread : ¬ (nick ∈ fromTables q ∧ s.base nick = s.base table))

/-- What a calculation lists is named by one of its queries, or listed only. The origins of a listed
field are gone through one by one. -/
theorem names_or_onlyListed {s : Scope} {calculation : List Char} {table field : String}
    (h : Origin (queries calculation) table field) (hfield : field ∈ s.fieldsOf (s.base table)) :
    Names s calculation (fieldKey (s.base table) field) ∨
      OnlyListed s (queries calculation) table field := by
  cases h with
  | placed mem first stands =>
    rcases stands with stands | stands
    · exact .inl ⟨_, mem, table, mem_fromTables_of_mainTable? first, field, hfield, rfl,
        .inr ⟨field.toList, spells_toList field, stands⟩⟩
    · exact .inr (.apart mem first stands)
  | @dotted q r nick main mem behind other first means =>
    by_cases hread : nick ∈ fromTables q ∧ s.base nick = s.base table
    · obtain ⟨hnick, hbase⟩ := hread
      exact .inl ⟨q, mem, nick, hnick, field, hbase ▸ hfield, by rw [hbase], .inl behind⟩
    · exact .inr (.alias mem behind other first means hread)

/-! ## Agreement -/

/-- The uses that are counted, those in queries said by the text of the queries. -/
theorem counted_iff_outside_or_named {raw : String} {root : Site} {uses : List Use}
    {table field : String} (hopen : openDocument "findall" raw = .ok root)
    (hlayouts : usesOnLayouts (scopeAt root) root = .ok uses)
    (hfield : (fieldsAt root).hasField table field = true) :
    Counted raw table field ↔
      (∃ u ∈ uses ++ usesOutsideQueries (scopeAt root) root, u.key = fieldKey table field) ∨
        NamedInQueries (scopeAt root) root (fieldKey table field) := by
  rw [counted_iff hopen hlayouts hfield, ← exists_usesInQueries_iff]
  simp only [List.mem_append, mem_otherUses_iff, ← or_assoc, or_and_right, exists_or]

/-- **When a listed field is counted.** Where the audit of queries lists a field of a table for a
calculation, and the base table has this field, the audit of fields tells of a use of the field exactly
if there is one outside of queries, or if some query of the document names the field at a place for
fields or behind a table and a dot. If the calculation is one of the document, a query does so, unless
the field is listed only. -/
theorem listed_field_counted_iff [SetOrder] {raw sql table field : String} {root : Site}
    {uses : List Use} (hopen : openDocument "findall" raw = .ok root)
    (hlayouts : usesOnLayouts (scopeAt root) root = .ok uses) (hlists : Lists raw sql table field)
    (hfield : (fieldsAt root).hasField ((scopeAt root).base table) field = true) :
    (Counted raw ((scopeAt root).base table) field ↔
      (∃ u ∈ uses ++ usesOutsideQueries (scopeAt root) root,
        u.key = fieldKey ((scopeAt root).base table) field) ∨
      NamedInQueries (scopeAt root) root (fieldKey ((scopeAt root).base table) field)) ∧
    (IsCalculation root sql →
      NamedInQueries (scopeAt root) root (fieldKey ((scopeAt root).base table) field) ∨
      OnlyListed (scopeAt root) (queries sql.toList) table field) := by
  refine ⟨counted_iff_outside_or_named hopen hlayouts hfield, ?_⟩
  rintro ⟨t, ht, rfl⟩
  refine (names_or_onlyListed hlists.origin (mem_fieldsOf_iff.mpr hfield)).imp_left fun hnames => ?_
  rw [Names, queries_trim] at hnames
  exact ⟨t, ht, hnames⟩

/-- A document with a query that sums one field of a table and compares another one. -/
def summedReport : String :=
  "<F><BaseTable name='T'><Field name='f' id='1'/><Field name='g' id='2'/></BaseTable>" ++
  "<Calculation>ExecuteSQL ( \"SELECT SUM(g) FROM T WHERE f=1\" ; \"\" ; \"\" )</Calculation></F>"

def summedQuery : String := "ExecuteSQL ( \"SELECT SUM(g) FROM T WHERE f=1\" ; \"\" ; \"\" )"

def summedTree : Node :=
  plain "F" []
    [plain "BaseTable" [("name", "T")]
      [plain "Field" [("name", "f"), ("id", "1")] [], plain "Field" [("name", "g"), ("id", "2")] []],
     calculationOf summedQuery]

set_option maxRecDepth 20000 in
theorem read_summed : read summedReport = .ok (some summedTree) :=
  (read_eq_of_toList (toList_two _ _) (by decide) (by rfl) (by rfl)).trans (by rfl)

theorem summed_uses :
    usesOnLayouts (scopeAt (Site.root summedTree)) (Site.root summedTree) = .ok [] := by rfl

theorem summed_keys :
    (otherUses (scopeAt (Site.root summedTree)) (Site.root summedTree)).map Use.key = ["T::f"] := by
  decide +kernel

theorem replace_summed : replace "??" "*" summedReport = summedReport :=
  replace_eq_self (toList_two _ _) (by decide +kernel)

theorem summed_lists {field : String} (h : field ∈ ["f", "g"]) :
    Lists summedReport summedQuery "T" field := by
  have hopen : openDocument "findall" (replace "??" "*" summedReport) =
      .ok (Site.root summedTree) := by
    rw [replace_summed]
    exact openDocument_of_read read_summed "findall"
  obtain ⟨place, hrows⟩ : ∃ place,
      rowsInOrder (Schema.ofRoot (Site.root summedTree)) (Site.root summedTree) =
        .ok [⟨place, some ((Schema.ofRoot (Site.root summedTree)).reading summedQuery)⟩] :=
    ⟨_, rfl⟩
  refine ⟨_, _, _, _, hopen, hrows, List.mem_singleton_self _,
    (mem_search_rows_iff hopen hrows).mpr ⟨_, List.mem_singleton_self _, rfl⟩, rfl, rfl,
    mem_extract_iff.mpr ?_⟩
  revert field
  decide +kernel

theorem summed_isCalculation : IsCalculation (Site.root summedTree) summedQuery :=
  ⟨summedQuery, ⟨((Site.root summedTree).all "Calculation").get ⟨0, by decide⟩, List.get_mem _ _,
    rfl, by decide +kernel⟩, by decide +kernel⟩

/-- Of the two listed fields only the compared one is used. -/
theorem summed_counts {key : String} :
    (∃ u ∈ [] ++ usesOutsideQueries (scopeAt (Site.root summedTree)) (Site.root summedTree),
        u.key = key) ∨
      NamedInQueries (scopeAt (Site.root summedTree)) (Site.root summedTree) key ↔
    key = "T::f" := by
  have hmem : (∃ u ∈ otherUses (scopeAt (Site.root summedTree)) (Site.root summedTree),
      u.key = key) ↔ key = "T::f" := by
    rw [← List.mem_map, summed_keys, List.mem_singleton]
  rw [← hmem, ← exists_usesInQueries_iff]
  simp only [List.nil_append, mem_otherUses_iff, or_and_right, exists_or]

theorem summed_field_not_counted :
    Lists summedReport summedQuery "T" "f" ∧ Counted summedReport "T" "f" ∧
      Lists summedReport summedQuery "T" "g" ∧ ¬ Counted summedReport "T" "g" ∧
      OnlyListed (scopeAt (Site.root summedTree)) (queries summedQuery.toList) "T" "g" := by
  have hopen := openDocument_of_read read_summed "findall"
  have hf := listed_field_counted_iff hopen summed_uses (summed_lists (by decide : "f" ∈ ["f", "g"]))
    (by decide +kernel)
  have hg := listed_field_counted_iff hopen summed_uses (summed_lists (by decide : "g" ∈ ["f", "g"]))
    (by decide +kernel)
  have hnot : fieldKey ((scopeAt (Site.root summedTree)).base "T") "g" ≠ "T::f" := by
    decide +kernel
  refine ⟨summed_lists (by decide), hf.1.mpr (summed_counts.mpr (by decide +kernel)),
    summed_lists (by decide), fun h => hnot (summed_counts.mp (hg.1.mp h)), ?_⟩
  exact (hg.2 summed_isCalculation).resolve_left fun h => hnot (summed_counts.mp (.inr h))

end DesignAudit.FieldUse
