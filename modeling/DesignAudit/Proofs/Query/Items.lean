import DesignAudit.Proofs.Query.Found
import DesignAudit.Proofs.Query.Resolution
import DesignAudit.Query.Verdict

/-!
# Items with a table in front

An item of a query may be written with the table or alias of its field in front. The search for such
items takes it apart at the dot, but two of the places for fields of the main table read it as well:
the first item of a selection is taken up to the next blank, comma or bracket, so with the dot in it,
and a key is taken up to the dot, so without the name behind it. `qualified_items` says which
references of a calculation come from such an item, and which fields can be missed although all items
exist.
-/

namespace DesignAudit.Query

open Text Text.Pattern

/-! ## What a query names -/

/-- The references of a calculation are those that its queries name, each changed by the aliases of
its own query and of the later ones. -/
theorem mem_extract_iff_named {calculation : List Char} {r : FieldRef} :
    r ∈ (extract calculation).fields ↔
      ∃ earlier q later, queries calculation = earlier ++ q :: later ∧
        ∃ main, mainTable? q = some main ∧
          ∃ x ∈ (fieldsOf main q).map (·.1), x.settle (q :: later) = r := by
  have hown : ∀ q later, (∃ x ∈ ownFields q, x.settle later = r) ↔
      ∃ main, mainTable? q = some main ∧
        ∃ x ∈ (fieldsOf main q).map (·.1), x.settle (q :: later) = r := by
    intro q later
    simp only [FieldRef.settle, List.foldl_cons, ownFields, meanings]
    cases mainTable? q with
    | none => simp
    | some main => simp
  rw [mem_extract_iff_settle]
  simp only [hown]

/-- An item with a name in front, apart from other names. -/
def QualifiedItem (query nick field : List Char) : Prop :=
  ∃ pre post, query = pre ++ (nick ++ '.' :: (field ++ post)) ∧
    (nick ≠ [] ∧ ∀ c ∈ nick, isName c = true) ∧ (field ≠ [] ∧ ∀ c ∈ field, isName c = true) ∧
    (∀ c ∈ pre.getLast?, isName c = false ∧ c ≠ '.') ∧ ∀ c ∈ post.head?, isName c = false

/-- A text as the first item of a selection. -/
def IsFirst (query item : List Char) : Prop := ∃ cs, FirstItem cs item ∧ cs <:+: query

/-- A name that stands by itself at a place for fields of the main table. -/
def NamedAlone (query name : List Char) : Prop :=
  '.' ∉ name ∧ (Placed query name ∨ ∃ pre post, Key query pre name post ∧ post.head? ≠ some '.')

theorem not_isName_dot : isName '.' = false := by decide

theorem dot_not_mem {name : List Char} (h : ∀ c ∈ name, isName c = true) : '.' ∉ name := by
  intro hdot
  have := h '.' hdot
  rw [not_isName_dot] at this
  cases this

section Query

variable {main : String} {query : List Char} {r : FieldRef}

/-- A text with a dot in it is neither a keyword nor a number. -/
theorem kept_of_dot {f : List Char} (h : '.' ∈ f) :
    (keywords.contains (capitals f) || isNumeral f) = false := by
  rw [Bool.or_eq_false_iff]
  constructor
  · -- the capital form of a dot is the dot, and no keyword holds one
    have hnone : ∀ k ∈ keywords, '.' ∉ k.toList := by decide +kernel
    have hdot : '.' ∈ (capitals f).toList := by
      rw [capitals, String.toList_ofList]
      exact List.mem_flatMap.mpr ⟨'.', h, by decide⟩
    rw [← Bool.not_eq_true, List.contains_iff_mem]
    exact fun hmem => hnone _ hmem hdot
  · have hdot : isDigit '.' = false := by decide
    rw [isNumeral, Bool.and_eq_false_iff]
    refine .inr (List.all_eq_false.mpr ⟨'.', h, ?_⟩)
    rw [hdot]
    exact Bool.false_ne_true

theorem mem_dottedFields_of_item {nick field : String}
    (h : QualifiedItem query nick.toList field.toList)
    (hnick : functionNames.contains (capitals nick.toList) = false) :
    .ofAlias nick field ∈ (dottedFields query).map (·.1) := by
  obtain ⟨pre, post, rfl, ⟨hne, hnicks⟩, ⟨hne', hfields⟩, hpre, hpost⟩ := h
  rw [dottedFields, List.map_filterMap]
  refine List.mem_filterMap.mpr
    ⟨_, mem_findPairs_dottedPattern hne hnicks hne' hfields hpost hpre, ?_⟩
  simp only [hnick, Bool.false_eq_true, if_false, String.ofList_toList, Option.map_some]

theorem mem_placedFields_of_first {item : String} (h : IsFirst query item.toList)
    (hdot : '.' ∈ item.toList) (hfrom : ¬ BeginsWithFrom item.toList) :
    .ofTable main item ∈ (placedFields main query).map (·.1) := by
  have hplace : ("SELECT", firstPattern) ∈ fieldPlaces := List.mem_of_getElem? (i := 3) rfl
  rw [placedFields, List.map_flatMap]
  refine List.mem_flatMap.mpr ⟨_, hplace, ?_⟩
  rw [List.map_filterMap]
  refine List.mem_filterMap.mpr ⟨_, (mem_findFirst_firstPattern_iff hfrom).mpr h, ?_⟩
  simp only [kept_of_dot hdot, Bool.false_eq_true, if_false, String.ofList_toList, Option.map_some]

theorem mem_orderingFields_of_key {nick : String} {pre post : List Char}
    (h : Key query pre nick.toList post) (hpre : ¬ EndsInKey pre)
    (hnumeral : isNumeral nick.toList = false) :
    .ofTable main nick ∈ (orderingFields main query).map (·.1) := by
  obtain ⟨keyword, hkeyword, words, rfl, hwords, ⟨hne, hnick⟩, hpost⟩ := h
  have hplace : ∃ label, (label, keyPattern keyword) ∈ orderPlaces := by
    rcases List.mem_cons.mp hkeyword with rfl | hkeyword
    · exact ⟨_, List.mem_cons_self⟩
    · rw [List.mem_singleton.mp hkeyword]
      exact ⟨_, List.mem_cons_of_mem _ List.mem_cons_self⟩
  obtain ⟨label, hplace⟩ := hplace
  rw [orderingFields, List.map_flatMap]
  refine List.mem_flatMap.mpr ⟨_, hplace, ?_⟩
  rw [List.map_filterMap]
  refine List.mem_filterMap.mpr
    ⟨_, mem_findFirst_keyPattern hkeyword hpre hwords hne hnick hpost, ?_⟩
  simp only [hnumeral, Bool.false_eq_true, if_false, String.ofList_toList, Option.map_some]

/-- Only the pattern for first items captures anything but a name. -/
theorem bodies_fieldPlaces :
    ∀ place ∈ fieldPlaces, place.2.bodies = [oneOrMore isName] ∨ place.2 = firstPattern := by
  simp only [fieldPlaces, List.forall_mem_cons, List.not_mem_nil, false_imp_iff, implies_true,
    and_true]
  exact ⟨.inl rfl, .inl rfl, .inl rfl, .inr rfl, .inl rfl, .inl rfl, .inl rfl, .inl rfl, .inl rfl,
    .inl rfl⟩

/-- A field of the main table stands by itself, or is a first item with a dot in it. -/
theorem alone_or_first_of_mem_placedFields (h : r ∈ (placedFields main query).map (·.1)) :
    ∃ name : String, r = .ofTable main name ∧
      (NamedAlone query name.toList ∨ '.' ∈ name.toList ∧ IsFirst query name.toList) := by
  refine forall_mem_kept (P := fun g => NamedAlone query g ∨ '.' ∈ g ∧ IsFirst query g)
    (fun place hplace g hg => ?_) (fun place g x hx => ?_) h
  · by_cases hdot : '.' ∈ g
    · refine .inr ⟨hdot, ?_⟩
      obtain ⟨pre, cs, post, gs, rfl, hreads⟩ := reads_of_mem_findFirst hg
      rcases bodies_fieldPlaces place hplace with hbodies | hfirst
      · obtain ⟨b, hb, _, _, _, hname⟩ := exists_mem_bodies_of_reads hreads List.mem_cons_self
        rw [hbodies, List.mem_singleton] at hb
        rw [hb, reads_oneOrMore] at hname
        exact absurd hdot (dot_not_mem hname.1.2)
      · rw [hfirst] at hreads
        obtain ⟨item, hitem, hgs⟩ := reads_firstPattern.mp hreads
        obtain ⟨rfl, -⟩ := List.cons.inj hgs
        exact ⟨cs, hitem, pre, post, by simp⟩
    · exact .inl ⟨hdot, .inl (placed_of_mem_fieldPlaces place hplace hg)⟩
  · split at hx
    · cases hx
    · rw [← Option.some.inj hx]

/-- A key stands by itself, or is the name in front of an item. -/
theorem alone_or_key_of_mem_orderingFields (h : r ∈ (orderingFields main query).map (·.1)) :
    ∃ name : String, r = .ofTable main name ∧
      (NamedAlone query name.toList ∨ ∃ pre post, Key query pre name.toList ('.' :: post)) := by
  have hkey : ∀ place ∈ orderPlaces, ∀ g ∈ place.2.findFirst query,
      ∃ pre post, Key query pre g post := by
    simp only [orderPlaces, List.forall_mem_cons, List.not_mem_nil, false_imp_iff, implies_true,
      and_true]
    exact ⟨fun g => key_of_mem_findFirst (by decide : "ORDER" ∈ ["ORDER", "GROUP"]),
      fun g => key_of_mem_findFirst (by decide : "GROUP" ∈ ["ORDER", "GROUP"])⟩
  refine forall_mem_kept
    (P := fun g => NamedAlone query g ∨ ∃ pre post, Key query pre g ('.' :: post))
    (fun place hplace g hg => ?_) (fun place g x hx => ?_) h
  · obtain ⟨pre, post, hkey⟩ := hkey place hplace g hg
    by_cases hdot : post.head? = some '.'
    · obtain ⟨post, rfl⟩ := List.head?_eq_some_iff.mp hdot
      exact .inr ⟨pre, post, hkey⟩
    · refine .inl ⟨?_, .inr ⟨pre, post, hkey, hdot⟩⟩
      obtain ⟨-, -, -, -, -, ⟨-, hname⟩, -⟩ := hkey
      exact dot_not_mem hname
  · split at hx
    · cases hx
    · rw [← Option.some.inj hx]

/-- The two names of an item are written with the characters of a name. -/
theorem isName_of_mem_dottedFields {nick field : String}
    (h : .ofAlias nick field ∈ (dottedFields query).map (·.1)) :
    (∀ c ∈ nick.toList, isName c = true) ∧ ∀ c ∈ field.toList, isName c = true := by
  obtain ⟨⟨_, note⟩, hmem, hx⟩ := List.mem_map.mp h
  obtain ⟨⟨a, f⟩, hpair, hfound⟩ := List.mem_filterMap.mp hmem
  dsimp only at hfound hx
  split at hfound
  · cases hfound
  · obtain ⟨rfl, -⟩ := Prod.mk.inj (Option.some.inj hfound)
    obtain ⟨rfl, rfl⟩ := FieldRef.ofAlias.inj hx
    rw [String.toList_ofList, String.toList_ofList]
    obtain ⟨_, _, _, _, -, hreads⟩ := reads_of_mem_findPairs hpair
    have hnames := fun g => capturesNames_dottedPattern.isName hreads (g := g)
    exact ⟨hnames a (by simp), hnames f (by simp)⟩

/-- What a query names, by the place where it stands. -/
theorem cases_of_mem_fieldsOf (h : r ∈ (fieldsOf main query).map (·.1)) :
    (∃ nick field, r = .ofAlias nick field ∧ r ∈ (dottedFields query).map (·.1)) ∨
    ∃ name : String, r = .ofTable main name ∧
      (NamedAlone query name.toList ∨ '.' ∈ name.toList ∧ IsFirst query name.toList ∨
        ∃ pre post, Key query pre name.toList ('.' :: post)) := by
  rcases mem_fieldsOf_iff.mp h with h | h | h
  · obtain ⟨nick, field, rfl, -⟩ := dotted_of_mem_dottedFields h
    exact .inl ⟨nick, field, rfl, h⟩
  · obtain ⟨name, rfl, hname⟩ := alone_or_first_of_mem_placedFields h
    exact .inr ⟨name, rfl, hname.imp_right .inl⟩
  · obtain ⟨name, rfl, hname⟩ := alone_or_key_of_mem_orderingFields h
    exact .inr ⟨name, rfl, hname.imp_right .inr⟩

end Query

/-! ## References of a calculation -/

section Calculation

variable {calculation : List Char}

/-- Whatever a query names is listed, as the aliases of the query and of the later ones have it. -/
theorem settle_mem_extract {earlier later : List (List Char)} {q : List Char} {main : String}
    (hsplit : queries calculation = earlier ++ q :: later) (hmain : mainTable? q = some main)
    {x : FieldRef} (hx : x ∈ (fieldsOf main q).map (·.1)) :
    x.settle (q :: later) ∈ (extract calculation).fields :=
  mem_extract_iff_named.mpr ⟨earlier, q, later, hsplit, main, hmain, x, hx, rfl⟩

/-- All items with a name in front exist: the field of each is one of the table that the name means,
or of the table of this name. -/
def ItemsExist (schema : Schema) (calculation : List Char) : Prop :=
  ∀ earlier q later, queries calculation = earlier ++ q :: later → (mainTable? q).isSome = true →
    ∀ x ∈ (dottedFields q).map (·.1), schema.missing? (x.settle (q :: later)).text = none

/-- A reference of a calculation is an item with a name in front, resolved or not, or it is named for
the main table of its query. -/
theorem cases_of_mem_extract {r : FieldRef} (h : r ∈ (extract calculation).fields) :
    (∃ earlier q later, queries calculation = earlier ++ q :: later ∧ (mainTable? q).isSome = true ∧
      ∃ nick field, .ofAlias nick field ∈ (dottedFields q).map (·.1) ∧
        (FieldRef.ofAlias nick field).settle (q :: later) = r) ∨
    ∃ q ∈ queries calculation, ∃ main name : String, mainTable? q = some main ∧
      r = .ofTable main name ∧
      (NamedAlone q name.toList ∨ '.' ∈ name.toList ∧ IsFirst q name.toList ∨
        ∃ pre post, Key q pre name.toList ('.' :: post)) := by
  obtain ⟨earlier, q, later, hsplit, main, hmain, x, hx, hsettle⟩ := mem_extract_iff_named.mp h
  rcases cases_of_mem_fieldsOf hx with ⟨nick, field, rfl, hitem⟩ | ⟨name, rfl, hname⟩
  · exact .inl ⟨earlier, q, later, hsplit, by rw [hmain]; rfl, nick, field, hitem, hsettle⟩
  · rw [settle_ofTable] at hsettle
    exact .inr ⟨q, hsplit ▸ by simp, main, name, hmain, hsettle.symm, hname⟩

/-- A reference whose names are written with the characters of a name. A field of a table may hold
others. -/
def FieldRef.Plain : FieldRef → Prop
  | .ofTable table _ => ∀ c ∈ table.toList, isName c = true
  | .ofAlias nick field =>
    (∀ c ∈ nick.toList, isName c = true) ∧ ∀ c ∈ field.toList, isName c = true

/-- No sign begins within a name. -/
theorem not_starts_of_isName {d : Char} (hd : isName d = false) {name : List Char}
    (hname : ∀ c ∈ name, isName c = true) (sign rest : List Char) :
    ∀ start, start <:+ name → start ≠ [] → ¬ (d :: sign) <+: start ++ rest := by
  intro start hstart hne h
  obtain ⟨c, more, rfl⟩ := List.exists_cons_of_ne_nil hne
  obtain ⟨rfl, -⟩ := List.cons_prefix_cons.mp h
  have hc := hname d (hstart.subset List.mem_cons_self)
  rw [hd] at hc
  cases hc

/-- What is written of a plain reference is taken apart into the reference again. -/
theorem FieldRef.Plain.ofText_text {r : FieldRef} (h : r.Plain) :
    FieldRef.ofText r.text = some r := by
  have hcolons : "::".toList = [':', ':'] := by decide
  cases r with
  | ofTable table field =>
    have hcut : cutOnce? "::" (table ++ "::" ++ field) = some (table, field) :=
      cutOnce?_append field (not_starts_of_isName (by decide) h _ _)
    rw [FieldRef.ofText, FieldRef.text, hcut]
  | ofAlias nick field =>
    have hnone : has "::" (nick ++ "." ++ field) = false := by
      rw [has_eq_false_iff, hcolons]
      intro hin
      have hmem : ':' ∈ (nick ++ "." ++ field).toList := hin.subset List.mem_cons_self
      simp only [String.toList_append, List.mem_append] at hmem
      rcases hmem with (hmem | hmem) | hmem
      · exact absurd (h.1 _ hmem) (by decide)
      · exact absurd hmem (by decide)
      · exact absurd (h.2 _ hmem) (by decide)
    have hcut : cutOnce? "." (nick ++ "." ++ field) = some (nick, field) :=
      cutOnce?_append field (not_starts_of_isName (by decide) h.1 _ _)
    rw [FieldRef.ofText, FieldRef.text, cutOnce?_eq_none (by decide) hnone, hcut]
    rfl

theorem FieldRef.Plain.settle {r : FieldRef} (h : r.Plain) (qs : List (List Char)) :
    (r.settle qs).Plain := by
  cases r with
  | ofTable table field =>
    rw [settle_ofTable]
    exact h
  | ofAlias nick field =>
    rw [settle_ofAlias]
    cases hmeaning : meaning? qs nick with
    | none => exact h
    | some table =>
      obtain ⟨q, -, hq⟩ := List.exists_of_findSome?_eq_some hmeaning
      rw [meanings] at hq
      cases hmain : mainTable? q with
      | none =>
        rw [hmain] at hq
        cases hq
      | some main =>
        rw [hmain] at hq
        exact isName_of_get?_aliasesOf (isName_of_mainTable? hmain) hq

/-- A calculation leads to plain references only. -/
theorem plain_of_mem_extract {r : FieldRef} (h : r ∈ (extract calculation).fields) : r.Plain := by
  obtain ⟨earlier, q, later, -, main, hmain, x, hx, rfl⟩ := mem_extract_iff_named.mp h
  refine FieldRef.Plain.settle ?_ _
  rcases cases_of_mem_fieldsOf hx with ⟨nick, field, rfl, hitem⟩ | ⟨name, rfl, -⟩
  · exact isName_of_mem_dottedFields hitem
  · exact isName_of_mainTable? hmain

end Calculation

/-- **Items with a table in front.** A reference that keeps an alias holds no dot but the one behind
the alias. A field of a table holds a dot only if it is the first item of a selection, and the table
is the main one of that query. What is written of a reference is taken apart into the reference
again. Each item with a name in front is listed as the aliases have it; in
addition, a first item is listed with its dot as a field of the main table, and so is the name in
front of a key. Of items that exist, no field is missed but these two and those that are named alone. -/
theorem qualified_items (calculation : List Char) :
    (∀ nick field, .ofAlias nick field ∈ (extract calculation).fields →
      '.' ∉ nick.toList ∧ '.' ∉ field.toList) ∧
    (∀ table field, .ofTable table field ∈ (extract calculation).fields → '.' ∈ field.toList →
      ∃ q ∈ queries calculation, mainTable? q = some table ∧ IsFirst q field.toList) ∧
    (∀ r ∈ (extract calculation).fields, FieldRef.ofText r.text = some r) ∧
    (∀ earlier q later main, queries calculation = earlier ++ q :: later →
      mainTable? q = some main →
      (∀ nick field, QualifiedItem q nick.toList field.toList →
        functionNames.contains (capitals nick.toList) = false →
        (FieldRef.ofAlias nick field).settle (q :: later) ∈ (extract calculation).fields) ∧
      (∀ item, IsFirst q item.toList → '.' ∈ item.toList → ¬ BeginsWithFrom item.toList →
        .ofTable main item ∈ (extract calculation).fields) ∧
      (∀ pre nick post, Key q pre nick.toList ('.' :: post) → ¬ EndsInKey pre →
        isNumeral nick.toList = false → .ofTable main nick ∈ (extract calculation).fields)) ∧
    (∀ schema, ItemsExist schema calculation →
      ∀ r ∈ (extract calculation).fields, schema.missing? r.text ≠ none →
        ∃ q ∈ queries calculation, ∃ main name : String, mainTable? q = some main ∧
          r = .ofTable main name ∧
          (NamedAlone q name.toList ∨ '.' ∈ name.toList ∧ IsFirst q name.toList ∨
            ∃ pre post, Key q pre name.toList ('.' :: post))) := by
  refine ⟨fun nick field h => ?_, fun table field h hdot => ?_,
    fun r h => (plain_of_mem_extract h).ofText_text,
    fun earlier q later main hsplit hmain => ⟨fun nick field h hnick => ?_,
      fun item h hdot hfrom => ?_, fun pre nick post h hpre hnumeral => ?_⟩,
    fun schema hexist r h hmissing => ?_⟩
  · rcases cases_of_mem_extract h with ⟨-, q, later, -, -, nick', field', hitem, hsettle⟩ |
      ⟨-, -, main, name, -, hr, -⟩
    · obtain ⟨hsame, -⟩ := settle_eq_ofAlias_iff.mp hsettle
      exact (isName_of_mem_dottedFields (hsame ▸ hitem)).imp dot_not_mem dot_not_mem
    · cases hr
  · rcases cases_of_mem_extract h with ⟨-, q, later, -, -, nick', field', hitem, hsettle⟩ |
      ⟨q, hq, main, name, hmain, hr, hname⟩
    · -- an item that is resolved has no dot in its field
      rw [settle_ofAlias] at hsettle
      cases hmeaning : meaning? (q :: later) nick' with
      | none =>
        rw [hmeaning, Option.elim_none] at hsettle
        cases hsettle
      | some table' =>
        rw [hmeaning, Option.elim_some] at hsettle
        obtain ⟨-, rfl⟩ := FieldRef.ofTable.inj hsettle
        exact absurd hdot (dot_not_mem (isName_of_mem_dottedFields hitem).2)
    · obtain ⟨rfl, rfl⟩ := FieldRef.ofTable.inj hr
      rcases hname with ⟨hnot, -⟩ | ⟨-, hfirst⟩ | ⟨pre, post, -, -, -, -, -, ⟨-, hkey⟩, -⟩
      · exact absurd hdot hnot
      · exact ⟨q, hq, hmain, hfirst⟩
      · exact absurd hdot (dot_not_mem hkey)
  · refine settle_mem_extract hsplit hmain (mem_fieldsOf_iff.mpr (.inl ?_))
    exact mem_dottedFields_of_item h hnick
  · rw [← settle_ofTable (q :: later)]
    refine settle_mem_extract hsplit hmain (mem_fieldsOf_iff.mpr (.inr (.inl ?_)))
    exact mem_placedFields_of_first h hdot hfrom
  · rw [← settle_ofTable (q :: later)]
    refine settle_mem_extract hsplit hmain (mem_fieldsOf_iff.mpr (.inr (.inr ?_)))
    exact mem_orderingFields_of_key h hpre hnumeral
  · rcases cases_of_mem_extract h with ⟨earlier, q, later, hsplit, hmain, nick, field, hitem, rfl⟩ |
      hnamed
    · exact absurd (hexist earlier q later hsplit hmain _ hitem) hmissing
    · exact hnamed

/-- A query that selects one field of a table and orders the rows by it. -/
def sortedQuery : List Char := "SELECT T.f FROM T ORDER BY T.f".toList

/-- A calculation that runs the query. -/
def sortedCalculation : List Char :=
  "ExecuteSQL ( \"SELECT T.f FROM T ORDER BY T.f\" ; \"\" ; \"\" )".toList

def oneField : Schema := ⟨["T"], .ofList [("T", ["f"])], .empty⟩

theorem queries_sorted : queries sortedCalculation = [sortedQuery] :=
  (congrArg queries String.toList_ofList).trans
    (Eq.trans (by decide +kernel) (congrArg (fun q => [q]) String.toList_ofList).symm)

/-- The table and its field exist, and yet two fields of the table are missed. -/
theorem existing_item_missed :
    ItemsExist oneField sortedCalculation ∧
    (.ofTable "T" "f" ∈ (extract sortedCalculation).fields ∧
      oneField.missing? "T::f" = none) ∧
    (.ofTable "T" "T.f" ∈ (extract sortedCalculation).fields ∧
      oneField.missing? "T::T.f" = some "T::T.f") ∧
    (.ofTable "T" "T" ∈ (extract sortedCalculation).fields ∧
      oneField.missing? "T::T" = some "T::T") := by
  have hmain : mainTable? sortedQuery = some "T" := by decide +kernel
  have hgap : IsGap " ".toList := ⟨by decide, by rw [IsBlanks]; decide⟩
  obtain ⟨hitems, hfirst, hkeys⟩ := (qualified_items sortedCalculation).2.2.2.1 [] sortedQuery [] "T"
    queries_sorted hmain
  refine ⟨?_, ⟨?_, by decide +kernel⟩, ⟨?_, by decide +kernel⟩, ⟨?_, by decide +kernel⟩⟩
  · intro earlier q later hsplit _
    rw [queries_sorted] at hsplit
    cases earlier with
    | nil =>
      obtain ⟨rfl, rfl⟩ := List.cons.inj hsplit
      decide +kernel
    | cons q' earlier => simp at hsplit
  · have h := hitems "T" "f" ⟨"SELECT ".toList, " FROM T ORDER BY T.f".toList, by decide +kernel,
      by decide, by decide, by decide, by decide⟩ (by decide +kernel)
    have hsettle : (FieldRef.ofAlias "T" "f").settle [sortedQuery] = .ofTable "T" "f" := by
      decide +kernel
    rwa [hsettle] at h
  · refine hfirst "T.f" ⟨"SELECT T.f FROM".toList, ⟨"SELECT".toList, " ".toList, " FROM".toList,
      by decide, spells_toList _, hgap, by decide, .inl (.inr ⟨" ".toList, "FROM".toList, by decide,
      hgap, spells_toList _⟩)⟩, [], " T ORDER BY T.f".toList, by decide +kernel⟩ (by decide) ?_
    rintro ⟨w, more, h, hw⟩
    have hlength := congrArg List.length h
    rw [List.length_append, ← hw.length_eq] at hlength
    exact absurd hlength (by simp; omega)
  · refine hkeys "SELECT T.f FROM T ".toList "T" "f".toList ⟨"ORDER", by decide, "ORDER BY ".toList,
      by decide +kernel, ⟨"ORDER".toList, " ".toList, "BY".toList, " ".toList, by decide,
      spells_toList _, hgap, spells_toList _, hgap⟩, by decide, by decide⟩ ?_ (by decide)
    rintro ⟨more, w, g, key, h, hw, -⟩
    have hnone : ∀ c ∈ "SELECT T.f FROM T ".toList, sameLetter 'B' c = false := by decide +kernel
    have hletters : "BY".toList = ['B', 'Y'] := by decide
    rw [Spells, hletters] at hw
    obtain ⟨b, w, hb, -, rfl⟩ := List.forall₂_cons_left_iff.mp hw
    have := hnone b (h ▸ by simp)
    rw [hb] at this
    cases this

end DesignAudit.Query
