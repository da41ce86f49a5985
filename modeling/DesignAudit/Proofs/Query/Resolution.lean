import DesignAudit.Proofs.Query.Extraction

/-!
# Several queries in one calculation

A calculation may call several queries. What they name is kept in one list, and the aliases of each
query are applied to all of the list. So a reference that one query leaves as it is written may still
be resolved by a query after it: `mem_foldl_add_iff` says what becomes of the references of each
query, and `settle_ofAlias` which ones are changed. `extract_eq_union_iff` says when the fields of a
calculation are those that its calls give one by one.
-/

namespace DesignAudit.Query

open Text Text.Pattern

/-! ## One query after the other -/

/-- What names mean in a query: the main table means itself, and an alias means the table that is
joined by it. In a query that reads from no table no name means anything. -/
def meanings (query : List Char) : Register String :=
  (mainTable? query).elim .empty (aliasesOf · query)

/-- The references of a query, resolved by its own aliases only. -/
def ownFields (query : List Char) : List FieldRef :=
  (mainTable? query).elim [] fun main =>
    (fieldsOf main query).map fun x => x.1.resolve (aliasesOf main query)

/-- What becomes of a reference when the aliases of several queries are applied to it in order. -/
def FieldRef.settle (qs : List (List Char)) (r : FieldRef) : FieldRef :=
  qs.foldl (fun r q => r.resolve (meanings q)) r

/-- The first meaning that one of several queries gives to a name. -/
def meaning? (qs : List (List Char)) (nick : String) : Option String :=
  qs.findSome? fun q => (meanings q).get? nick

theorem FieldRef.resolve_empty (r : FieldRef) : r.resolve .empty = r := by
  cases r with
  | ofTable table field => rfl
  | ofAlias nick field => rfl

/-- A query resolves what was found before it and adds what it names itself. -/
theorem fields_add (e : Extraction) (q : List Char) :
    (e.add q).fields = e.fields.map (·.resolve (meanings q)) ++ ownFields q := by
  rw [Extraction.add, meanings, ownFields]
  cases mainTable? q with
  | none =>
    have hid : (FieldRef.resolve .empty) = id := funext FieldRef.resolve_empty
    simp only [Option.elim_none, hid, List.map_id, List.append_nil]
  | some main =>
    simp only [Option.elim_some, List.map_append, List.map_map]
    rfl

variable {r : FieldRef} {calculation : List Char} {field nick : String}

/-- A later query sees all references of the earlier ones, and none of a query after it. -/
theorem mem_foldl_add_iff {qs : List (List Char)} {e : Extraction} :
    r ∈ (qs.foldl Extraction.add e).fields ↔
      (∃ x ∈ e.fields, x.settle qs = r) ∨
      ∃ earlier q later, qs = earlier ++ q :: later ∧ ∃ x ∈ ownFields q, x.settle later = r := by
  induction qs generalizing e with
  | nil => simp [FieldRef.settle]
  | cons q qs ih =>
    rw [List.foldl_cons, ih, fields_add]
    simp only [List.mem_append, List.mem_map, or_and_right, exists_or, or_assoc]
    refine or_congr ?_ ⟨?_, ?_⟩
    · constructor
      · rintro ⟨_, ⟨x, hx, rfl⟩, h⟩
        exact ⟨x, hx, h⟩
      · rintro ⟨x, hx, h⟩
        exact ⟨_, ⟨x, hx, rfl⟩, h⟩
    · rintro (⟨x, hx, h⟩ | ⟨earlier, q', later, rfl, h⟩)
      · exact ⟨[], q, qs, rfl, x, hx, h⟩
      · exact ⟨q :: earlier, q', later, rfl, h⟩
    · rintro ⟨earlier, q', later, hsplit, x, hx, h⟩
      cases earlier with
      | nil =>
        obtain ⟨rfl, rfl⟩ := List.cons.inj hsplit
        exact .inl ⟨x, hx, h⟩
      | cons q₀ earlier =>
        obtain ⟨rfl, rfl⟩ := List.cons.inj hsplit
        exact .inr ⟨earlier, q', later, rfl, x, hx, h⟩

theorem mem_extract_iff_settle :
    r ∈ (extract calculation).fields ↔
      ∃ earlier q later, queries calculation = earlier ++ q :: later ∧
        ∃ x ∈ ownFields q, x.settle later = r := by
  rw [mem_extract_iff, mem_foldl_add_iff]
  simp

@[simp]
theorem settle_ofTable (qs : List (List Char)) (table field : String) :
    (FieldRef.ofTable table field).settle qs = .ofTable table field := by
  induction qs with
  | nil => rfl
  | cons q qs ih => exact ih

/-- A reference with an alias is changed by the first query in which the alias means a table. -/
theorem settle_ofAlias (qs : List (List Char)) (nick field : String) :
    (FieldRef.ofAlias nick field).settle qs =
      (meaning? qs nick).elim (.ofAlias nick field) (.ofTable · field) := by
  induction qs with
  | nil => rfl
  | cons q qs ih =>
    rw [FieldRef.settle, List.foldl_cons, FieldRef.resolve, meaning?, List.findSome?_cons]
    cases (meanings q).get? nick with
    | none => exact ih
    | some table => exact settle_ofTable qs table field

theorem settle_eq_ofAlias_iff {qs : List (List Char)} {x : FieldRef} :
    x.settle qs = .ofAlias nick field ↔ x = .ofAlias nick field ∧ meaning? qs nick = none := by
  cases x with
  | ofTable table field' => simp
  | ofAlias nick' field' =>
    rw [settle_ofAlias]
    cases hmeaning : meaning? qs nick' with
    | none =>
      rw [Option.elim_none]
      constructor
      · intro h
        obtain ⟨rfl, rfl⟩ := FieldRef.ofAlias.inj h
        exact ⟨rfl, hmeaning⟩
      · exact fun h => h.1
    | some table =>
      rw [Option.elim_some]
      constructor
      · intro h
        cases h
      · rintro ⟨h, hnone⟩
        obtain ⟨rfl, rfl⟩ := FieldRef.ofAlias.inj h
        rw [hmeaning] at hnone
        cases hnone

/-! ## Calls -/

/-- A call of a query, as it stands in a calculation. -/
structure Call where
  text : List Char
  query : List Char
  deriving DecidableEq

/-- The calls in a text from left to right, after `skip` characters of the call found last. -/
def callsFrom : Nat → List Char → List Call
  | _, [] => []
  | skip + 1, _ :: rest => callsFrom skip rest
  | 0, c :: rest =>
    match callPattern.matchAt none (c :: rest) with
    | some m => ⟨(c :: rest).take m.length, m.groups.headD []⟩ :: callsFrom (m.length - 1) rest
    | none => callsFrom 0 rest

def callsIn (calculation : List Char) : List Call := callsFrom 0 calculation

theorem isCall_of_mem_callsFrom {skip : Nat} {text : List Char} :
    ∀ c ∈ callsFrom skip text, IsCall c.text c.query ∧ c.text <:+: text := by
  induction text generalizing skip with
  | nil => simp [callsFrom]
  | cons d text ih =>
    have hlater : ∀ {n}, ∀ c ∈ callsFrom n text, IsCall c.text c.query ∧ c.text <:+: d :: text :=
      fun c hc => (ih c hc).imp_right List.infix_cons
    cases skip with
    | succ skip => exact hlater
    | zero =>
      rw [callsFrom]
      cases hmatch : callPattern.matchAt none (d :: text) with
      | none => exact hlater
      | some m =>
        obtain ⟨cs, after, query, htext, hcall, rfl⟩ := matchAt_call_eq_some_iff.mp hmatch
        rw [List.forall_mem_cons]
        refine ⟨?_, hlater⟩
        rw [htext, List.take_left]
        exact ⟨hcall, (List.prefix_append cs after).isInfix⟩

theorem map_query_callsFrom (skip : Nat) (before : Option Char) (text : List Char) :
    (callsFrom skip text).map Call.query =
      ((callPattern.allFrom skip before text).map Match.groups).filterMap List.head? := by
  induction text generalizing skip before with
  | nil => simp [callsFrom, allFrom]
  | cons d text ih =>
    cases skip with
    | succ skip => exact ih skip (some d)
    | zero =>
      rw [callsFrom, allFrom, matchAt_call_before before none]
      cases hmatch : callPattern.matchAt none (d :: text) with
      | none => exact ih 0 (some d)
      | some m =>
        obtain ⟨cs, after, query, -, -, rfl⟩ := matchAt_call_eq_some_iff.mp hmatch
        simp only [List.map_cons, ih _ (some d)]
        rfl

/-- The queries of a calculation are those of its calls. -/
theorem map_query_callsIn (calculation : List Char) :
    (callsIn calculation).map Call.query = queries calculation :=
  map_query_callsFrom 0 none calculation

/-- A call by itself runs its query and no other one. -/
theorem IsCall.queries_eq {cs query : List Char} (h : IsCall cs query) : queries cs = [query] := by
  have hmatch : callPattern.matchAt none cs = some ⟨cs.length, [query]⟩ :=
    matchAt_call_eq_some_iff.mpr ⟨cs, [], query, (List.append_nil cs).symm, h, rfl⟩
  cases cs with
  | nil =>
    obtain ⟨w, b₁, b₂, o, c, hcs, -⟩ := h
    simp at hcs
  | cons d cs =>
    have hrest : callPattern.allFrom ((d :: cs).length - 1) (some d) cs = [] :=
      allFrom_of_length_le (by simp)
    rw [queries, findFirst, findAll, allFrom]
    simp only [hmatch, hrest]
    rfl

/-- What a call gives by itself. -/
theorem mem_extract_call_iff {c : Call} (hc : c ∈ callsIn calculation)
     : r ∈ (extract c.text).fields ↔ r ∈ ownFields c.query := by
  rw [mem_extract_iff, (isCall_of_mem_callsFrom c hc).1.queries_eq, List.foldl_cons, List.foldl_nil,
    fields_add]
  simp

/-! ## All calls of a calculation -/

/-- A reference that a call leaves as it is written, and whose name means a table in a call after
it. -/
def Overtaken (calls : List Call) (nick field table : String) : Prop :=
  ∃ earlier c later, calls = earlier ++ c :: later ∧ .ofAlias nick field ∈ (extract c.text).fields ∧
    meaning? (later.map Call.query) nick = some table

/-- A reference that a call leaves as it is written, and whose name means nothing in the calls after
it. -/
def Remains (calls : List Call) (nick field : String) : Prop :=
  ∃ earlier c later, calls = earlier ++ c :: later ∧ .ofAlias nick field ∈ (extract c.text).fields ∧
    meaning? (later.map Call.query) nick = none

/-- The fields of a calculation by its calls. -/
theorem mem_extract_iff_calls :
    r ∈ (extract calculation).fields ↔
      ∃ earlier c later, callsIn calculation = earlier ++ c :: later ∧
        ∃ x ∈ (extract c.text).fields, x.settle (later.map Call.query) = r := by
  rw [mem_extract_iff_settle, ← map_query_callsIn]
  constructor
  · rintro ⟨earlier, q, later, hsplit, x, hx, h⟩
    obtain ⟨earlier, rest, hcalls, rfl, hrest⟩ := List.map_eq_append_iff.mp hsplit
    obtain ⟨c, later, rfl, rfl, rfl⟩ := List.map_eq_cons_iff.mp hrest
    have hc : c ∈ callsIn calculation := hcalls ▸ by simp
    exact ⟨earlier, c, later, hcalls, x, (mem_extract_call_iff hc).mpr hx, h⟩
  · rintro ⟨earlier, c, later, hcalls, x, hx, h⟩
    have hc : c ∈ callsIn calculation := hcalls ▸ by simp
    exact ⟨earlier.map Call.query, c.query, later.map Call.query, by simp [hcalls], x,
      (mem_extract_call_iff hc).mp hx, h⟩

theorem ofAlias_mem_extract_iff :
    .ofAlias nick field ∈ (extract calculation).fields ↔
      Remains (callsIn calculation) nick field := by
  rw [mem_extract_iff_calls]
  constructor
  · rintro ⟨earlier, c, later, hcalls, x, hx, h⟩
    obtain ⟨rfl, hnone⟩ := settle_eq_ofAlias_iff.mp h
    exact ⟨earlier, c, later, hcalls, hx, hnone⟩
  · rintro ⟨earlier, c, later, hcalls, hx, hnone⟩
    exact ⟨earlier, c, later, hcalls, _, hx, settle_eq_ofAlias_iff.mpr ⟨rfl, hnone⟩⟩

theorem ofTable_mem_extract_iff {table field : String} :
    .ofTable table field ∈ (extract calculation).fields ↔
      (∃ c ∈ callsIn calculation, .ofTable table field ∈ (extract c.text).fields) ∨
      ∃ nick, Overtaken (callsIn calculation) nick field table := by
  rw [mem_extract_iff_calls]
  constructor
  · rintro ⟨earlier, c, later, hcalls, x, hx, h⟩
    cases x with
    | ofTable table' field' =>
      rw [settle_ofTable] at h
      exact .inl ⟨c, hcalls ▸ by simp, h ▸ hx⟩
    | ofAlias nick field' =>
      rw [settle_ofAlias] at h
      cases hmeaning : meaning? (later.map Call.query) nick with
      | none =>
        rw [hmeaning, Option.elim_none] at h
        cases h
      | some table' =>
        rw [hmeaning, Option.elim_some] at h
        obtain ⟨rfl, rfl⟩ := FieldRef.ofTable.inj h
        exact .inr ⟨nick, earlier, c, later, hcalls, hx, hmeaning⟩
  · rintro (⟨c, hc, hx⟩ | ⟨nick, earlier, c, later, hcalls, hx, hmeaning⟩)
    · obtain ⟨earlier, later, hcalls⟩ := List.append_of_mem hc
      exact ⟨earlier, c, later, hcalls, _, hx, settle_ofTable _ _ _⟩
    · exact ⟨earlier, c, later, hcalls, _, hx, by rw [settle_ofAlias, hmeaning, Option.elim_some]⟩

/-- A reference that is left by a call is overtaken or remains. -/
theorem overtaken_or_remains {calls : List Call} {c : Call} (hc : c ∈ calls)
    (h : .ofAlias nick field ∈ (extract c.text).fields) :
    (∃ table, Overtaken calls nick field table) ∨ Remains calls nick field := by
  obtain ⟨earlier, later, hcalls⟩ := List.append_of_mem hc
  cases hmeaning : meaning? (later.map Call.query) nick with
  | none => exact .inr ⟨earlier, c, later, hcalls, h, hmeaning⟩
  | some table => exact .inl ⟨table, earlier, c, later, hcalls, h, hmeaning⟩

/-- **When calls are read each on its own.** The calls of a calculation stand in it and run its
queries, in order. The fields of the calculation are those of its calls, each changed by the aliases
of the calls after it. They are the same as the fields of the calls one by one exactly if every
reference that a later call overtakes is also left by a call after which its name means nothing, and
what it is changed to is also named by some call itself. No reference is changed by the aliases of
another call exactly if none is overtaken. -/
theorem extract_eq_union_iff (calculation : List Char) :
    (∀ c ∈ callsIn calculation, IsCall c.text c.query ∧ c.text <:+: calculation) ∧
    (callsIn calculation).map Call.query = queries calculation ∧
    (∀ r, r ∈ (extract calculation).fields ↔
      ∃ earlier c later, callsIn calculation = earlier ++ c :: later ∧
        ∃ x ∈ (extract c.text).fields, x.settle (later.map Call.query) = r) ∧
    ((∀ r, r ∈ (extract calculation).fields ↔
        ∃ c ∈ callsIn calculation, r ∈ (extract c.text).fields) ↔
      ∀ nick field table, Overtaken (callsIn calculation) nick field table →
        Remains (callsIn calculation) nick field ∧
        ∃ c ∈ callsIn calculation, .ofTable table field ∈ (extract c.text).fields) ∧
    ((∀ earlier c later, callsIn calculation = earlier ++ c :: later →
        ∀ x ∈ (extract c.text).fields, x.settle (later.map Call.query) = x) ↔
      ∀ nick field table, ¬ Overtaken (callsIn calculation) nick field table) := by
  refine ⟨isCall_of_mem_callsFrom, map_query_callsIn calculation, fun r => mem_extract_iff_calls,
    ⟨fun hunion nick field table hover => ?_, fun hover r => ?_⟩,
    ⟨fun hsame nick field table hover => ?_, fun hnone earlier c later hcalls x hx => ?_⟩⟩
  · have htable := ofTable_mem_extract_iff.mpr (.inr ⟨nick, hover⟩)
    obtain ⟨earlier, c, later, hcalls, hx, -⟩ := hover
    exact ⟨ofAlias_mem_extract_iff.mp ((hunion _).mpr ⟨c, hcalls ▸ by simp, hx⟩),
      (hunion _).mp htable⟩
  · cases r with
    | ofTable table field =>
      rw [ofTable_mem_extract_iff]
      exact ⟨fun h => h.elim id fun ⟨nick, h⟩ => (hover nick field table h).2, .inl⟩
    | ofAlias nick field =>
      rw [ofAlias_mem_extract_iff]
      constructor
      · rintro ⟨earlier, c, later, hcalls, hx, -⟩
        exact ⟨c, hcalls ▸ by simp, hx⟩
      · rintro ⟨c, hc, hx⟩
        exact (overtaken_or_remains hc hx).elim (fun ⟨table, h⟩ => (hover nick field table h).1) id
  · obtain ⟨earlier, c, later, hcalls, hx, hmeaning⟩ := hover
    have hkept := hsame earlier c later hcalls _ hx
    rw [settle_ofAlias, hmeaning, Option.elim_some] at hkept
    cases hkept
  · cases x with
    | ofTable table field => exact settle_ofTable _ _ _
    | ofAlias nick field =>
      rw [settle_ofAlias]
      cases hmeaning : meaning? (later.map Call.query) nick with
      | none => rfl
      | some table =>
        exact absurd ⟨earlier, c, later, hcalls, hx, hmeaning⟩ (hnone nick field table)

/-- A call with a reference whose alias is that of no table, and one that joins a table by this
alias. -/
def borrowingCalls : List Call :=
  [⟨"ExecuteSQL ( \"SELECT g FROM A WHERE x.f = 1\"".toList, "SELECT g FROM A WHERE x.f = 1".toList⟩,
   ⟨"ExecuteSQL ( \"SELECT h FROM B JOIN C AS x\"".toList, "SELECT h FROM B JOIN C AS x".toList⟩]

/-- A calculation with these two calls. -/
def borrowingCalculation : List Char :=
  "ExecuteSQL ( \"SELECT g FROM A WHERE x.f = 1\" ; \"\" ; \"\" ) & ".toList ++
    "ExecuteSQL ( \"SELECT h FROM B JOIN C AS x\" ; \"\" ; \"\" )".toList

theorem callsIn_borrowing : callsIn borrowingCalculation = borrowingCalls :=
  (congrArg callsIn (congrArg₂ (· ++ ·) String.toList_ofList String.toList_ofList)).trans
    (Eq.trans (by decide +kernel) (congrArg₂ (fun c d : Call => [c, d])
      (congrArg₂ Call.mk String.toList_ofList String.toList_ofList)
      (congrArg₂ Call.mk String.toList_ofList String.toList_ofList)).symm)

theorem queries_borrowing :
    queries borrowingCalculation = borrowingCalls.map Call.query := by
  rw [← map_query_callsIn, callsIn_borrowing]

/-- The reference of the first call is taken for a field of the table that the second one joins, so
that the calls together give other fields than one by one. -/
theorem borrowed_alias_resolved :
    (.ofTable "C" "f" ∈ (extract borrowingCalculation).fields ∧
      .ofAlias "x" "f" ∉ (extract borrowingCalculation).fields) ∧
    ¬ ∀ r, r ∈ (extract borrowingCalculation).fields ↔
      ∃ c ∈ callsIn borrowingCalculation, r ∈ (extract c.text).fields := by
  have hfirst : .ofAlias "x" "f" ∈ (extract (borrowingCalls.get ⟨0, by decide⟩).text).fields :=
    mem_extract_iff.mpr (by decide +kernel)
  have hover : Overtaken (callsIn borrowingCalculation) "x" "f" "C" :=
    ⟨[], _, _, callsIn_borrowing, hfirst, by decide +kernel⟩
  have hnot : .ofAlias "x" "f" ∉ (extract borrowingCalculation).fields := by
    rw [mem_extract_iff, queries_borrowing.trans
      (congrArg₂ (fun q r => [q, r]) String.toList_ofList String.toList_ofList)]
    decide +kernel
  refine ⟨⟨ofTable_mem_extract_iff.mpr (.inr ⟨"x", hover⟩), hnot⟩, fun hunion => hnot ?_⟩
  exact ofAlias_mem_extract_iff.mpr
    ((extract_eq_union_iff borrowingCalculation).2.2.2.1.mp hunion "x" "f" "C" hover).1

end DesignAudit.Query
