import DesignAudit.Proofs.Query.Place
import DesignAudit.Proofs.Register
import DesignAudit.Proofs.Text.Longest
import DesignAudit.Proofs.Text.Spelling

/-!
# Where the fields of a calculation come from

A calculation lists a field of a table because the field stands at a place of one of its queries and
the table is the main table of that query, or because the field stands behind a dot and the name
before the dot means the table by the aliases of some query (`origin_of_mem_extract`). The aliases of
a query apply to all that was found before it, so that the two queries may differ.

Blanks around a calculation do not change its queries (`queries_trim`).
-/

namespace DesignAudit.Query

open Text Text.Pattern

/-! ## Queries -/

/-- A call that runs a query: the word for it, an opening bracket, and the query in quotes. -/
def IsCall (cs query : List Char) : Prop :=
  ∃ w b₁ b₂ o c, cs = w ++ (b₁ ++ '(' :: (b₂ ++ o :: (query ++ [c]))) ∧
    Spells "ExecuteSQL" w ∧ IsBlanks b₁ ∧ IsBlanks b₂ ∧ isQuote o = true ∧
    (∀ x ∈ query, isQuote x = false) ∧ isQuote c = true

variable {c : Char} {r : FieldRef} {qs : List (List Char)} {bs q query rest xs : List Char}
  {before : Option Char} {main table : String}

theorem reads_callPattern {cs after : List Char} {gs : List (List Char)} :
    callPattern.Reads before cs after gs ↔ ∃ query, IsCall cs query ∧ gs = [query] := by
  have hbody : ∀ before cs after gs, (many fun c => !isQuote c).Reads before cs after gs ↔
      (∀ c ∈ cs, (!isQuote c) = true) ∧ gs = [] := fun _ _ _ _ => .rfl
  simp only [callPattern, reads_word_then, reads_blanks_then, reads_text_then, reads_one_then,
    reads_group_then hbody, reads_all_nil]
  constructor
  · rintro ⟨w, _, rfl, hw, b₁, _, rfl, hb₁, _, _, rfl, rfl, b₂, _, rfl, hb₂, _, _, rfl, ⟨o, ho, rfl⟩,
      query, _, _, rfl, rfl, hquery, _, _, rfl, ⟨c, hc, rfl⟩, rfl, rfl⟩
    exact ⟨query, ⟨w, b₁, b₂, o, c, rfl, hw, hb₁, hb₂, ho, by simpa using hquery, hc⟩, rfl⟩
  · rintro ⟨query, ⟨w, b₁, b₂, o, c, rfl, hw, hb₁, hb₂, ho, hquery, hc⟩, rfl⟩
    exact ⟨w, _, rfl, hw, b₁, _, rfl, hb₁, ['('], _, rfl, rfl, b₂, _, rfl, hb₂, [o], _, rfl,
      ⟨o, ho, rfl⟩, query, _, [], rfl, rfl, by simpa using hquery, [c], [], rfl, ⟨c, hc, rfl⟩, rfl,
      rfl⟩

/-- A run of one class that ends with a character of no such class is determined by the text. -/
theorem run_unique {p : Char → Bool} {xs ys r s : List Char} {c d : Char}
    (hxs : ∀ x ∈ xs, p x = true) (hys : ∀ y ∈ ys, p y = true) (hc : p c = false)
    (hd : p d = false) (h : xs ++ c :: r = ys ++ d :: s) : xs = ys ∧ c = d ∧ r = s := by
  obtain ⟨rfl, htail⟩ := run_append_inj hxs hys (by simpa using hc) (by simpa using hd) h
  exact ⟨rfl, List.cons.inj htail⟩

theorem not_isBlank_of_isQuote (h : isQuote c = true) : isBlank c = false := by
  rw [isQuote, Bool.or_eq_true, beq_iff_eq, beq_iff_eq] at h
  rcases h with rfl | rfl <;> decide

/-- At most one call begins at a position. -/
theorem IsCall.unique {cs ds after rest q r : List Char} (hq : IsCall cs q) (hr : IsCall ds r)
    (h : cs ++ after = ds ++ rest) : cs = ds ∧ q = r := by
  obtain ⟨w, b₁, b₂, o, c, rfl, hw, hb₁, hb₂, ho, hq, hc⟩ := hq
  obtain ⟨w', b₁', b₂', o', c', rfl, hw', hb₁', hb₂', ho', hr, hc'⟩ := hr
  simp only [List.append_assoc, List.cons_append] at h
  -- the word has a fixed length, and each run of blanks ends with the sign after it
  obtain ⟨rfl, h₁⟩ := List.append_inj h (hw.length_eq.symm.trans hw'.length_eq)
  obtain ⟨rfl, -, h₂⟩ := run_unique hb₁ hb₁' (by decide) (by decide) h₁
  obtain ⟨rfl, rfl, h₃⟩ := run_unique hb₂ hb₂' (not_isBlank_of_isQuote ho)
    (not_isBlank_of_isQuote ho') h₂
  have hinside : ∀ x, (!isQuote x) = true ↔ isQuote x = false := fun x => by simp
  obtain ⟨rfl, rfl, -⟩ := run_unique (fun x hx => (hinside x).mpr (hq x hx))
    (fun x hx => (hinside x).mpr (hr x hx)) (by rw [hc]; rfl) (by rw [hc']; rfl) h₃
  exact ⟨rfl, rfl⟩

/-- A match of the pattern for calls is the call that begins at the position. -/
theorem matchAt_call_eq_some_iff {m : Match} :
    callPattern.matchAt before rest = some m ↔
      ∃ cs after query, rest = cs ++ after ∧ IsCall cs query ∧ m = ⟨cs.length, [query]⟩ := by
  constructor
  · intro h
    obtain ⟨cs, after, gs, rfl, hreads, rfl⟩ := matchAt_sound h
    obtain ⟨query, hcall, rfl⟩ := reads_callPattern.mp hreads
    exact ⟨cs, after, query, rfl, hcall, rfl⟩
  · rintro ⟨cs, after, query, rfl, hcall, rfl⟩
    have hsome : (callPattern.matchAt before (cs ++ after)).isSome = true :=
      matchAt_isSome_iff.mpr ⟨cs, after, [query], rfl, reads_callPattern.mpr ⟨query, hcall, rfl⟩⟩
    obtain ⟨m, hm⟩ := Option.isSome_iff_exists.mp hsome
    obtain ⟨ds, rest, gs, h, hreads, rfl⟩ := matchAt_sound hm
    obtain ⟨query', hcall', rfl⟩ := reads_callPattern.mp hreads
    obtain ⟨rfl, rfl⟩ := hcall.unique hcall' h
    exact hm

/-- No call begins with a blank. -/
theorem matchAt_call_of_isBlank (hc : isBlank c = true) :
    callPattern.matchAt before (c :: rest) = none := by
  rw [Option.eq_none_iff_forall_ne_some]
  intro m hm
  obtain ⟨cs, after, query, h, ⟨w, b₁, b₂, o, d, rfl, hw, -⟩, -⟩ := matchAt_call_eq_some_iff.mp hm
  have hletters : "ExecuteSQL".toList = 'E' :: "xecuteSQL".toList := by decide
  rw [Spells, hletters] at hw
  obtain ⟨e, w', he, -, rfl⟩ := List.forall₂_cons_left_iff.mp hw
  obtain ⟨rfl, -⟩ := List.cons.inj h
  rw [not_isBlank_of_sameLetter (by decide) he] at hc
  cases hc

theorem matchAt_call_before (before before' : Option Char) (rest : List Char) :
    callPattern.matchAt before rest = callPattern.matchAt before' rest := by
  apply Option.ext
  intro m
  rw [matchAt_call_eq_some_iff, matchAt_call_eq_some_iff]

/-- Blanks after a text change no match in it, since a call ends with a quotation mark. -/
theorem matchAt_call_append (xs : List Char) (hbs : IsBlanks bs) :
    callPattern.matchAt before (xs ++ bs) = callPattern.matchAt before xs := by
  apply Option.ext
  intro m
  rw [matchAt_call_eq_some_iff, matchAt_call_eq_some_iff]
  constructor
  · rintro ⟨cs, after, query, h, hcall, rfl⟩
    rcases List.append_eq_append_iff.mp h with ⟨ds, rfl, rfl⟩ | ⟨ds, rfl, rfl⟩
    · rcases List.eq_nil_or_concat ds with rfl | ⟨es, d, rfl⟩
      · rw [List.append_nil] at hcall ⊢
        exact ⟨xs, [], query, (List.append_nil xs).symm, hcall, rfl⟩
      · -- the call would end with one of the blanks
        obtain ⟨w, b₁, b₂, o, c, heq, -, -, -, -, -, hc⟩ := hcall
        have hends : (xs ++ es) ++ [d] = (w ++ (b₁ ++ '(' :: (b₂ ++ o :: query))) ++ [c] := by
          simpa using heq
        have hlast : d = c := List.singleton_inj.mp (List.append_inj' hends rfl).2
        have hd : isBlank d = true := hbs d (by simp)
        rw [hlast, not_isBlank_of_isQuote hc] at hd
        cases hd
    · exact ⟨cs, ds, query, rfl, hcall, rfl⟩
  · rintro ⟨cs, after, query, rfl, hcall, rfl⟩
    exact ⟨cs, after ++ bs, query, List.append_assoc .., hcall, rfl⟩

theorem allFrom_call_blanks {skip : Nat}
    (hbs : IsBlanks bs) : callPattern.allFrom skip before bs = [] := by
  induction bs generalizing skip before with
  | nil => simp [allFrom]
  | cons b bs ih =>
    obtain ⟨hb, hbs⟩ := List.forall_mem_cons.mp hbs
    cases skip with
    | zero =>
      simp only [allFrom, matchAt_call_of_isBlank hb]
      exact ih hbs
    | succ n => exact ih hbs

theorem allFrom_call_append {skip : Nat} (hbs : IsBlanks bs) :
    callPattern.allFrom skip before (xs ++ bs) = callPattern.allFrom skip before xs := by
  induction xs generalizing skip before with
  | nil => rw [List.nil_append, allFrom_call_blanks hbs, allFrom]
  | cons x xs ih =>
    cases skip with
    | zero => simp only [List.cons_append, allFrom, ← matchAt_call_append (x :: xs) hbs, ih]
    | succ n => exact ih

theorem allFrom_call_before (skip : Nat) (before before' : Option Char) (xs : List Char) :
    callPattern.allFrom skip before xs = callPattern.allFrom skip before' xs := by
  cases xs with
  | nil => simp [allFrom]
  | cons x xs =>
    cases skip with
    | zero => simp only [allFrom, matchAt_call_before before before']
    | succ n => rfl

theorem allFrom_blanks_call (hbs : IsBlanks bs) :
    callPattern.allFrom 0 before (bs ++ xs) = callPattern.allFrom 0 before xs := by
  induction bs generalizing before with
  | nil => rfl
  | cons b bs ih =>
    obtain ⟨hb, hbs⟩ := List.forall_mem_cons.mp hbs
    simp only [List.cons_append, allFrom, matchAt_call_of_isBlank hb]
    rw [ih hbs, allFrom_call_before]

/-- Blanks around a calculation do not change its queries. -/
theorem queries_trim (t : String) : queries (trim t).toList = queries t.toList := by
  obtain ⟨xs, ys, h, hxs, hys⟩ := exists_trimChars_eq isBlank t.toList
  rw [trim, String.toList_ofList]
  conv_rhs => rw [h]
  rw [queries, queries, findFirst, findFirst, findAll, findAll, allFrom_blanks_call hxs,
    allFrom_call_append hys]

/-! ## The tables that a query reads from -/

/-- The tables that a query reads from, in order. -/
def fromTables (query : List Char) : List String :=
  (mainPattern.findFirst query).map String.ofList

theorem matchAt_mainPattern_nil (before : Option Char) : mainPattern.matchAt before [] = none := by
  rw [← Option.not_isSome_iff_eq_none, matchAt_isSome_iff]
  rintro ⟨cs, after, gs, h, hreads⟩
  obtain ⟨rfl, -⟩ := List.nil_eq_append_iff.mp h
  rw [mainPattern, reads_word_then] at hreads
  obtain ⟨w, ys, h, hw, -⟩ := hreads
  obtain ⟨rfl, -⟩ := List.nil_eq_append_iff.mp h
  exact absurd hw.length_eq (by decide)

/-- The main table of a query is the first of the tables that it reads from. -/
theorem mem_fromTables_of_mainTable? (h : mainTable? query = some table) :
    table ∈ fromTables query := by
  obtain ⟨m, hm, h⟩ := Option.bind_eq_some_iff.mp h
  obtain ⟨g, hg, rfl⟩ := Option.map_eq_some_iff.mp h
  refine List.mem_map_of_mem (List.mem_filterMap.mpr ⟨m.groups, ?_, hg⟩)
  exact List.mem_map_of_mem (mem_allFrom_of_searchFrom matchAt_mainPattern_nil hm)

theorem isName_of_mainTable? (h : mainTable? query = some table) :
    ∀ c ∈ table.toList, isName c = true := by
  obtain ⟨g, hg, rfl⟩ := List.mem_map.mp (mem_fromTables_of_mainTable? h)
  obtain ⟨_, _, _, _, -, hreads⟩ := reads_of_mem_findFirst hg
  rw [String.toList_ofList]
  exact capturesNames_mainPattern.isName hreads List.mem_cons_self

/-- The tables that names mean in a query are written with the characters of a name. -/
theorem isName_of_get?_aliasesOf {main nick table : String}
    (hmain : ∀ c ∈ main.toList, isName c = true)
    (h : (aliasesOf main query).get? nick = some table) :
    ∀ c ∈ table.toList, isName c = true := by
  have haliases : aliasesOf main query = (Register.ofList [(main, main)]).insertAll
      ((joinPattern.findPairs query).map fun p =>
        (String.ofList (if p.2.isEmpty then p.1 else p.2), String.ofList p.1)) := by
    rw [aliasesOf, Register.insertAll, List.foldl_map]
  rw [haliases, Register.get?_insertAll, Register.get?_ofList, Option.or_eq_some_iff] at h
  rcases h with h | ⟨-, h⟩
  · obtain ⟨⟨a, b⟩, hpair, heq⟩ := List.mem_map.mp (List.mem_reverse.mp (Register.mem_of_lookup h))
    obtain ⟨_, _, _, _, -, hreads⟩ := reads_of_mem_findPairs hpair
    rw [← (Prod.mk.inj heq).2, String.toList_ofList]
    exact capturesNames_joinPattern.isName hreads List.mem_cons_self
  · obtain ⟨-, rfl⟩ : nick = main ∧ table = main := by simpa using Register.mem_of_lookup h
    exact hmain

/-! ## Origins -/

/-- How queries come to name a field of a table: the field stands at a place of a query that reads
from the table first, or behind a dot and a name that means the table by the aliases of a query. -/
inductive Origin (qs : List (List Char)) (table field : String) : Prop where
  | placed {q : List Char} (mem : q ∈ qs) (first : mainTable? q = some table)
      (stands : StandsIn q field.toList ∨ StandsApart q field.toList)
  | dotted {q r : List Char} {nick main : String} (mem : q ∈ qs)
      (behind : Dotted q nick.toList field.toList) (other : r ∈ qs)
      (first : mainTable? r = some main) (means : (aliasesOf main r).get? nick = some table)

/-- What is known of a field reference that queries have led to. -/
def Explained (qs : List (List Char)) : FieldRef → Prop
  | .ofTable table field => Origin qs table field
  | .ofAlias nick field => ∃ q ∈ qs, Dotted q nick.toList field.toList

theorem Explained.resolve (h : Explained qs r) (hq : q ∈ qs) (hmain : mainTable? q = some main) :
    Explained qs (r.resolve (aliasesOf main q)) := by
  cases r with
  | ofTable table field => exact h
  | ofAlias nick field =>
    rw [FieldRef.resolve]
    cases hmeans : (aliasesOf main q).get? nick with
    | none => exact h
    | some table =>
      obtain ⟨q', hq', hdotted⟩ := h
      exact .dotted hq' hdotted hq hmain hmeans

theorem explained_of_mem_fieldsOf (hq : q ∈ qs) (hmain : mainTable? q = some main)
    (h : r ∈ (fieldsOf main q).map (·.1)) : Explained qs r := by
  rcases origin_of_mem_fieldsOf h with ⟨field, rfl, hstands⟩ | ⟨nick, field, rfl, hdotted⟩
  · exact .placed hq hmain hstands
  · exact ⟨q, hq, hdotted⟩

/-- Adding a query keeps all references explained. -/
theorem explained_add {e : Extraction} (he : ∀ r ∈ e.fields, Explained qs r) (hq : q ∈ qs) :
    ∀ r ∈ (e.add q).fields, Explained qs r := by
  rw [Extraction.add]
  cases hmain : mainTable? q with
  | none => exact he
  | some main =>
    intro r hr
    obtain ⟨r', hr', rfl⟩ := List.mem_map.mp hr
    refine Explained.resolve ?_ hq hmain
    rcases List.mem_append.mp hr' with hr' | hr'
    · exact he r' hr'
    · exact explained_of_mem_fieldsOf hq hmain hr'

theorem explained_foldl {all qs : List (List Char)} (hqs : ∀ q ∈ qs, q ∈ all) {e : Extraction}
    (he : ∀ r ∈ e.fields, Explained all r) :
    ∀ r ∈ (qs.foldl Extraction.add e).fields, Explained all r := by
  induction qs generalizing e with
  | nil => exact he
  | cons q qs ih =>
    rw [List.forall_mem_cons] at hqs
    exact ih hqs.2 (explained_add he hqs.1)

/-- The fields of a calculation are those that its queries add. -/
theorem mem_extract_iff {calculation : List Char} :
    r ∈ (extract calculation).fields ↔
      r ∈ ((queries calculation).foldl Extraction.add {}).fields := by
  rw [extract]
  split
  · rename_i hnone
    rw [hnone]
    rfl
  · rfl

/-- Every field of a table that a calculation lists has its origin in the queries of the
calculation. -/
theorem origin_of_mem_extract {calculation : List Char} {table field : String}
    (h : .ofTable table field ∈ (extract calculation).fields) :
    Origin (queries calculation) table field := by
  rw [mem_extract_iff] at h
  exact explained_foldl (fun _ hq => hq) (fun _ hr => absurd hr List.not_mem_nil) _ h

end DesignAudit.Query
