import DesignAudit.Catalog.Full
import DesignAudit.Proofs.Markup.Below
import DesignAudit.Proofs.Register

/-!
# Occurrences, tables and fields of a report

Table occurrences are declared in up to three passes over a report, in which the last declaration of a
name counts. The pass over relationship graphs only repeats declarations that were read before, so it
adds no name (`names_occurrences`), but it may bring an older base table back. It does so only for
names that are declared for two base tables (`get?_occurrences_of_not_contested`).

The fields of a table are those that some declaration gives to it (`hasField_fieldsByTable_iff`), and
each table with a field is one of the tables of the report (`has_tables_of_mem`).
-/

namespace DesignAudit.Catalog

open Markup

/-! ## Occurrences -/

/-- An element of a kind below a node declares a name as an occurrence of a base table. -/
def Declares (root : Site) (kind name base : String) : Prop :=
  ∃ s ∈ root.all kind, occurrence? s = some (name, base)

/-- Two table occurrences declare a name for different base tables, and one of them stands in a
relationship graph. -/
def Contested (root : Site) (name : String) : Prop :=
  ∃ inside outside, inside ≠ outside ∧
    (∃ graph ∈ root.all "RelationshipGraph", Declares graph "TableOccurrence" name inside) ∧
    Declares root "TableOccurrence" name outside

/-- No name is declared by two table occurrences for different base tables. -/
def SingleBases (root : Site) : Prop :=
  ∀ name base other, Declares root "TableOccurrence" name base →
    Declares root "TableOccurrence" name other → base = other

variable {root : Site}

theorem mem_declarations_iff {kind name base : String} :
    (name, base) ∈ (root.all kind).filterMap occurrence? ↔ Declares root kind name base :=
  List.mem_filterMap

theorem mem_graphDeclarations_iff {name base : String} :
    (name, base) ∈
    (root.allBelow "RelationshipGraph" "TableOccurrence").filterMap occurrence? ↔
      ∃ graph ∈ root.all "RelationshipGraph", Declares graph "TableOccurrence" name base := by
  simp only [List.mem_filterMap, Site.mem_allBelow_iff, Declares]
  constructor
  · rintro ⟨s, ⟨graph, hgraph, hs⟩, hdeclares⟩
    exact ⟨graph, hgraph, s, hs, hdeclares⟩
  · rintro ⟨graph, hgraph, s, hs, hdeclares⟩
    exact ⟨s, ⟨graph, hgraph, hs⟩, hdeclares⟩

/-- What a part of a report declares the report declares. -/
theorem Declares.outwards {root part : Site} {tag kind name base : String}
    (hpart : part ∈ root.all tag) (h : Declares part kind name base) :
    Declares root kind name base := by
  obtain ⟨s, hs, hdeclares⟩ := h
  exact ⟨s, Site.mem_all_trans hpart hs, hdeclares⟩

theorem contested_iff {name : String} :
    Contested root name ↔
      ∃ x ∈ (root.allBelow "RelationshipGraph" "TableOccurrence").filterMap occurrence?,
        ∃ y ∈ (root.all "TableOccurrence").filterMap occurrence?,
          x.1 = name ∧ y.1 = name ∧ x.2 ≠ y.2 := by
  constructor
  · rintro ⟨inside, outside, hne, hinside, houtside⟩
    exact ⟨(name, inside), mem_graphDeclarations_iff.mpr hinside, (name, outside),
      mem_declarations_iff.mpr houtside, rfl, rfl, hne⟩
  · rintro ⟨⟨n, inside⟩, hinside, ⟨m, outside⟩, houtside, rfl, rfl, hne⟩
    exact ⟨inside, outside, hne, mem_graphDeclarations_iff.mp hinside,
      mem_declarations_iff.mp houtside⟩

instance (root : Site) (name : String) : Decidable (Contested root name) :=
  decidable_of_iff _ contested_iff.symm

theorem singleBases_iff :
    SingleBases root ↔
      ∀ x ∈ (root.all "TableOccurrence").filterMap occurrence?,
        ∀ y ∈ (root.all "TableOccurrence").filterMap occurrence?, x.1 = y.1 → x.2 = y.2 := by
  constructor
  · rintro h ⟨n, base⟩ hx ⟨m, other⟩ hy rfl
    exact h n base other (mem_declarations_iff.mp hx) (mem_declarations_iff.mp hy)
  · intro h name base other hbase hother
    exact h (name, base) (mem_declarations_iff.mpr hbase) (name, other)
      (mem_declarations_iff.mpr hother) rfl

instance (root : Site) : Decidable (SingleBases root) :=
  decidable_of_iff _ singleBases_iff.symm

theorem SingleBases.not_contested (h : SingleBases root) (name : String) :
    ¬ Contested root name := by
  rintro ⟨inside, outside, hne, ⟨graph, hgraph, hinside⟩, houtside⟩
  exact hne (h name inside outside (hinside.outwards hgraph) houtside)

theorem get?_declaredOccurrences (root : Site) (name : String) :
    (declaredOccurrences root).get? name =
      (((root.all "TableOccurrence").filterMap occurrence?).reverse.lookup name).or
        (((root.all "Table").filterMap occurrence?).reverse.lookup name) := by
  rw [declaredOccurrences, Register.get?_ofList, List.reverse_append, List.lookup_append]

theorem has_declaredOccurrences_of_declares {name base : String}
    (h : Declares root "TableOccurrence" name base) :
    (declaredOccurrences root).has name = true :=
  (Register.has_ofList _ _).mpr
    ⟨base, List.mem_append_right _ (mem_declarations_iff.mpr h)⟩

/-- The pass over relationship graphs adds no name. -/
theorem names_occurrences (root : Site) :
    (occurrences root).names = (declaredOccurrences root).names := by
  refine Register.names_insertAll_of_mem fun x hx => ?_
  obtain ⟨graph, hgraph, hdeclares⟩ := mem_graphDeclarations_iff.mp hx
  exact Register.mem_names_iff.mpr
    (has_declaredOccurrences_of_declares (hdeclares.outwards hgraph))

/-- The pass over relationship graphs changes nothing for a name that is not contested: the last
declaration in a graph has a last declaration of all beside it, and the two have the same base
table. -/
theorem get?_occurrences_of_not_contested {name : String} (h : ¬ Contested root name) :
    (occurrences root).get? name = (declaredOccurrences root).get? name := by
  rw [occurrences, Register.get?_insertAll]
  cases hgraph : ((root.allBelow "RelationshipGraph" "TableOccurrence").filterMap
      occurrence?).reverse.lookup name with
  | none => rw [Option.none_or]
  | some inside =>
    have hinside := mem_graphDeclarations_iff.mp (List.mem_reverse.mp (Register.mem_of_lookup hgraph))
    obtain ⟨graph, hmem, hdeclares⟩ := hinside
    have hlast : (((root.all "TableOccurrence").filterMap occurrence?).reverse.lookup
        name).isSome = true :=
      Register.isSome_lookup_iff.mpr ⟨inside,
        List.mem_reverse.mpr (mem_declarations_iff.mpr (hdeclares.outwards hmem))⟩
    obtain ⟨outside, houtside⟩ := Option.isSome_iff_exists.mp hlast
    have heq : inside = outside := by
      by_contra hne
      refine h ⟨inside, outside, hne, ⟨graph, hmem, hdeclares⟩, ?_⟩
      exact mem_declarations_iff.mp (List.mem_reverse.mp (Register.mem_of_lookup houtside))
    rw [get?_declaredOccurrences, houtside, heq, Option.some_or, Option.some_or]

theorem base_occurrences (h : SingleBases root) :
    base (occurrences root) = base (declaredOccurrences root) := by
  funext name
  rw [base, base, Register.getD, Register.getD,
    get?_occurrences_of_not_contested (h.not_contested name)]

/-! ## Fields -/

theorem fieldsByTable_occurrences (h : SingleBases root) :
    fieldsByTable (occurrences root) root = fieldsByTable (declaredOccurrences root) root := by
  rw [fieldsByTable, fieldsByTable, fieldDeclarations, fieldDeclarations, base_occurrences h]

theorem hasField_enter (fs : Fields) (table : String) (f : Field) (t name : String) :
    (fs.enter table f).hasField t name = true ↔
      (t = table ∧ f.name = name) ∨ fs.hasField t name = true := by
  rw [Fields.hasField, Fields.enter, Register.get?_update]
  by_cases ht : t = table
  · subst ht
    rw [if_pos rfl, Fields.hasField, Register.getD]
    simp only [Register.has_insert, Bool.or_eq_true, beq_iff_eq, true_and, @eq_comm _ name]
    cases fs.get? t with
    | none => simp
    | some fields => simp
  · simp [ht, Fields.hasField]

theorem hasField_foldl_enter (ds : List (String × Field)) (fs : Fields) (t name : String) :
    (ds.foldl (fun fs (table, f) => fs.enter table f) fs).hasField t name = true ↔
      (∃ f, (t, f) ∈ ds ∧ f.name = name) ∨ fs.hasField t name = true := by
  induction ds generalizing fs with
  | nil => simp
  | cons d ds ih =>
    obtain ⟨table, g⟩ := d
    rw [List.foldl_cons, ih, hasField_enter]
    constructor
    · rintro (⟨f, hf, hname⟩ | ⟨rfl, hname⟩ | h)
      · exact .inl ⟨f, List.mem_cons_of_mem _ hf, hname⟩
      · exact .inl ⟨g, List.mem_cons_self, hname⟩
      · exact .inr h
    · rintro (⟨f, hf, hname⟩ | h)
      · rcases List.mem_cons.mp hf with heq | hf
        · obtain ⟨rfl, rfl⟩ := Prod.mk.inj heq
          exact .inr (.inl ⟨rfl, hname⟩)
        · exact .inl ⟨f, hf, hname⟩
      · exact .inr (.inr h)

/-- A table has the fields that are declared for it. -/
theorem hasField_fieldsByTable_iff {occurrences : Register String} {table name : String} :
    (fieldsByTable occurrences root).hasField table name = true ↔
      ∃ f, (table, f) ∈ fieldDeclarations occurrences root ∧ f.name = name := by
  rw [fieldsByTable, hasField_foldl_enter]
  simp [Fields.hasField]

/-- Tables have distinct names, and so do the fields of each table. -/
structure Fields.Distinct (fs : Fields) : Prop where
  tables : fs.names.Nodup
  fields : ∀ e ∈ fs.entries, e.2.names.Nodup

theorem Fields.Distinct.enter {fs : Fields} (h : fs.Distinct) (table : String) (f : Field) :
    (fs.enter table f).Distinct where
  tables := Register.nodup_names_insert h.tables table _
  fields := by
    intro e he
    have hold : (fs.getD table .empty).names.Nodup := by
      rw [Register.getD]
      cases hget : fs.get? table with
      | none => exact List.nodup_nil
      | some fields => exact h.fields _ (Register.mem_of_lookup hget)
    rcases Register.mem_put he with rfl | he
    · exact Register.nodup_names_insert hold f.name f
    · exact h.fields e he

theorem distinct_fieldsByTable (occurrences : Register String) (root : Site) :
    (fieldsByTable occurrences root).Distinct := by
  rw [fieldsByTable]
  have hempty : Fields.Distinct .empty := ⟨List.nodup_nil, fun e he => absurd he List.not_mem_nil⟩
  generalize Register.empty = fs at hempty
  induction fieldDeclarations occurrences root generalizing fs with
  | nil => exact hempty
  | cons d ds ih => exact ih _ (hempty.enter d.1 d.2)

theorem mem_pairs_iff {fs : Fields} (h : fs.Distinct) {table field : String} :
    (table, field) ∈ fs.pairs ↔ fs.hasField table field = true := by
  simp only [Fields.pairs, List.mem_flatMap, List.mem_map, Prod.mk.injEq]
  constructor
  · rintro ⟨⟨t, fields⟩, he, f, hf, rfl, rfl⟩
    rw [Fields.hasField, Register.get?_of_mem_entries h.tables he]
    exact Register.mem_names_iff.mp hf
  · intro hfield
    rw [Fields.hasField] at hfield
    split at hfield
    · rename_i fields hget
      exact ⟨(table, fields), Register.mem_of_lookup hget, field,
        Register.mem_names_iff.mpr hfield, rfl, rfl⟩
    · cases hfield

theorem nodup_pairs {fs : Fields} (h : fs.Distinct) : fs.pairs.Nodup := by
  rw [Fields.pairs, List.nodup_flatMap]
  constructor
  · intro e he
    exact (h.fields e he).map fun f g heq => (Prod.mk.inj heq).2
  · have htables : fs.entries.Pairwise fun a b => a.1 ≠ b.1 := List.pairwise_map.mp h.tables
    refine htables.imp fun {a b} hne => ?_
    rintro x ha hb
    obtain ⟨f, -, rfl⟩ := List.mem_map.mp ha
    obtain ⟨g, -, heq⟩ := List.mem_map.mp hb
    exact hne (Prod.mk.inj heq).1.symm

theorem length_pairs (fs : Fields) : fs.pairs.length = fs.count := by
  rw [Fields.pairs, List.length_flatMap, Fields.count, ← List.sum_eq_foldr, Register.values,
    List.map_map]
  congr 1
  refine List.map_congr_left fun e _ => ?_
  simp [Register.names, Register.size]

/-! ## Tables -/

theorem has_enterField (ts : Register Table) (table : String) (f : Field) (name : String) :
    (enterField ts table f).has name = true ↔ some table = some name ∨ ts.has name = true := by
  rw [enterField, Register.has_update, Bool.or_eq_true, beq_iff_eq, Option.some_inj, eq_comm]

theorem has_tablesInDocument {name : String} :
    (tablesInDocument root).has name = true ↔
      ∃ t ∈ root.all "BaseTable", t.node.named? "name" = some name := by
  rw [tablesInDocument, Register.has_foldl fun t => t.node.named? "name"]
  · simp
  · intro ts t name
    dsimp only
    cases t.node.named? "name" with
    | none => simp
    | some table =>
      rw [Register.has_insert, Bool.or_eq_true, beq_iff_eq, Option.some_inj, eq_comm]

/-- The tables are those that base-table elements name, and those for which a field catalogue declares
a field. -/
theorem has_tables_iff {occurrences : Register String} {name : String} :
    (tables occurrences root).has name = true ↔
      (∃ c ∈ cataloguedTables root, c.1 = name) ∨
    (∃ d ∈ fieldsWithTable root, base occurrences d.1 = name) ∨
      ∃ t ∈ root.all "BaseTable", t.node.named? "name" = some name := by
  rw [tables, Register.has_foldl fun c => some c.1,
    Register.has_foldl fun d => some (base occurrences d.1), has_tablesInDocument]
  · simp only [Option.some_inj]
  · exact fun ts d name => has_enterField ts (base occurrences d.1) d.2 name
  · rintro ts ⟨table, t⟩ name
    dsimp only
    -- the fields of a table that is there already add nothing more
    rw [Register.has_foldl (fun _ => some table) fun ts f name => has_enterField ts table f name]
    split
    · rename_i htable
      constructor
      · rintro (⟨-, -, h⟩ | h)
        · exact .inl h
        · exact .inr h
      · rintro (h | h)
        · exact .inr (Option.some.inj h ▸ htable)
        · exact .inr h
    · rw [Register.has_insert, Bool.or_eq_true, beq_iff_eq, Option.some_inj, @eq_comm _ name]
      constructor
      · rintro (⟨-, -, h⟩ | h)
        · exact .inl h
        · exact h
      · exact .inr

/-- A table with a declared field is one of the tables. -/
theorem has_tables_of_mem {occurrences : Register String} {table : String} {f : Field}
    (h : (table, f) ∈ fieldDeclarations occurrences root) :
    (tables occurrences root).has table = true := by
  rw [has_tables_iff]
  rw [fieldDeclarations, List.append_assoc] at h
  rcases List.mem_append.mp h with h | h
  · obtain ⟨t, ht, h⟩ := List.mem_flatMap.mp h
    cases hname : t.node.named? "name" with
    | none => simp [hname] at h
    | some name =>
      rw [hname] at h
      obtain ⟨g, -, h⟩ := List.mem_filterMap.mp h
      obtain ⟨field, -, heq⟩ := Option.map_eq_some_iff.mp h
      exact .inr (.inr ⟨t, ht, hname.trans (congrArg some (Prod.mk.inj heq).1)⟩)
  rcases List.mem_append.mp h with h | h
  · obtain ⟨d, hd, h⟩ := List.mem_map.mp h
    exact .inr (.inl ⟨d, hd, (Prod.mk.inj h).1⟩)
  · obtain ⟨c, hc, h⟩ := List.mem_flatMap.mp h
    obtain ⟨g, -, h⟩ := List.mem_map.mp h
    exact .inl ⟨c, hc, (Prod.mk.inj h).1⟩

end DesignAudit.Catalog
