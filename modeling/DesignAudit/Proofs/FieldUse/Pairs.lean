import DesignAudit.FieldUse.Calculation
import DesignAudit.Proofs.Register
import DesignAudit.Proofs.Text.Longest

/-!
# Pairs of a table and a field

Calculations name a field with its table and a double colon between them. The search for such pairs goes
from left to right without overlap, and takes names as long as can be. So a pair that stands apart from
other names is found, whatever stands around it (`mem_findPairs`), and it is a use of the field that it
leads to (`mem_calculationUses_of_pair`).
-/

namespace DesignAudit.FieldUse

open Text Text.Pattern

/-! ## Plain names -/

/-- A character of a plain name is a character of a name. -/
theorem isName_of_isIdentifier {c : Char} (h : isIdentifier c = true) : isName c = true :=
  forall_of_isIdentifier (p := fun c => isName c = true) (by decide) h

theorem isTableName_of_isName {c : Char} (h : isName c = true) : isTableName c = true := by
  rw [isTableName, h, Bool.true_or]

/-- A table or a field of a plain name: letters, digits and low lines. -/
def IsPlain (name : String) : Prop := name ≠ "" ∧ ∀ c ∈ name.toList, isIdentifier c = true

instance (name : String) : Decidable (IsPlain name) :=
  inferInstanceAs (Decidable (name ≠ "" ∧ ∀ c ∈ name.toList, isIdentifier c = true))

theorem IsPlain.toList_ne_nil {name : String} (h : IsPlain name) : name.toList ≠ [] :=
  mt String.toList_eq_nil_iff.mp h.1

/-! ## Two names with a double colon between them -/

/-- A name of each of two classes, with a double colon between them. -/
def joinedNames (p q : Char → Bool) : Pattern :=
  all [group (oneOrMore p), text "::", group (oneOrMore q)]

theorem pairPattern_eq : pairPattern "::" = joinedNames isTableName isName := rfl

section JoinedNames

variable {p q : Char → Bool} {table field post : List Char}

theorem takes_of_reads_joinedNames (hq : ∀ c, q c = true → p c = true) {before : Option Char}
    {cs after : List Char} {gs : List (List Char)}
    (h : (joinedNames p q).Reads before cs after gs) : ∀ c ∈ cs, p c = true ∨ c = ':' := by
  obtain ⟨xs, ys, gs', rfl, -, ⟨-, hxs⟩, h⟩ :=
    (reads_group_then fun _ _ _ _ => reads_oneOrMore).mp h
  obtain ⟨divider, zs, rfl, rfl, h⟩ := reads_text_then.mp h
  obtain ⟨inner, hzs, -⟩ := h
  obtain ⟨⟨-, hzs⟩, -⟩ := reads_oneOrMore.mp hzs
  intro c hc
  simp only [List.mem_append] at hc
  rcases hc with hc | hc | hc
  · exact .inl (hxs c hc)
  · exact .inr (by simpa using hc)
  · exact .inl (hq c (hzs c hc))

/-- Two joined names are matched as a whole where they stand. -/
theorem matchAt_joinedNames (hcolon : p ':' = false) (htable : table ≠ [])
    (htables : ∀ c ∈ table, p c = true) (hfield : field ≠ [])
    (hfields : ∀ c ∈ field, q c = true) (hpost : ∀ c ∈ post.head?, q c = false)
    (before : Option Char) :
    (joinedNames p q).matchAt before (table ++ ("::".toList ++ (field ++ post))) =
      some ⟨table.length + 2 + field.length, [table, field]⟩ := by
  have hdivider : ∀ c ∈ ("::".toList ++ (field ++ post)).head?, p c = false := by
    intro c hc
    obtain rfl : ':' = c := Option.some.inj hc
    exact hcolon
  rw [joinedNames, matchAt, all, all, all, run_seq]
  · refine run_group_longest htable htables hdivider ?_
    rw [run_seq]
    refine (run_chars "::".toList).trans (run_group_longest hfield hfields hpost ?_)
    have hlength : (table ++ ("::".toList ++ (field ++ post))).length - post.length =
        table.length + 2 + field.length := by
      have hdivider : "::".toList.length = 2 := rfl
      simp only [List.length_append, hdivider]
      omega
    simp only [hlength, List.map_cons, List.map_nil, Capture.text_append, List.reverse_cons,
      List.reverse_nil, List.nil_append, List.singleton_append]
  · simp
  · simp

/-- The search finds two joined names first if it begins there. -/
theorem allFrom_joinedNames (hcolon : p ':' = false) (htable : table ≠ [])
    (htables : ∀ c ∈ table, p c = true) (hfield : field ≠ [])
    (hfields : ∀ c ∈ field, q c = true) (hpost : ∀ c ∈ post.head?, q c = false)
    (before : Option Char) :
    ∃ n later, (joinedNames p q).allFrom 0 before (table ++ ("::".toList ++ (field ++ post))) =
      ⟨n, [table, field]⟩ :: later := by
  have hmatch := matchAt_joinedNames hcolon htable htables hfield hfields hpost before
  obtain ⟨c, cs, rfl⟩ := List.exists_cons_of_ne_nil htable
  rw [List.cons_append] at hmatch ⊢
  rw [allFrom, hmatch]
  exact ⟨_, _, rfl⟩

/-- Two joined names are found if what stands before them ends with a character that no match
takes. -/
theorem mem_findPairs_joinedNames (hq : ∀ c, q c = true → p c = true) (hcolon : p ':' = false)
    (htable : table ≠ []) (htables : ∀ c ∈ table, p c = true) (hfield : field ≠ [])
    (hfields : ∀ c ∈ field, q c = true) (hpost : ∀ c ∈ post.head?, q c = false)
    {pre : List Char} (hpre : ∀ c ∈ pre.getLast?, p c = false ∧ c ≠ ':') :
    (table, field) ∈ (joinedNames p q).findPairs
      (pre ++ (table ++ ("::".toList ++ (field ++ post)))) := by
  have hhere := allFrom_joinedNames hcolon htable htables hfield hfields hpost
  have hfound : ∃ n, ⟨n, [table, field]⟩ ∈ (joinedNames p q).allFrom 0 none
      (pre ++ (table ++ ("::".toList ++ (field ++ post)))) := by
    rcases List.eq_nil_or_concat pre with rfl | ⟨pre, d, rfl⟩
    · obtain ⟨n, later, hn⟩ := hhere none
      exact ⟨n, by rw [List.nil_append, hn]; exact List.mem_cons_self⟩
    · obtain ⟨hd, hne⟩ := hpre d (by simp)
      obtain ⟨n, later, hn⟩ := hhere (some d)
      refine ⟨n, ?_⟩
      rw [List.concat_eq_append, List.append_assoc]
      exact mem_allFrom_of_barrier (takes_of_reads_joinedNames hq) (by simp [hd, hne])
        (hn ▸ List.mem_cons_self) (Nat.zero_le _) none
  obtain ⟨n, hn⟩ := hfound
  exact List.mem_filterMap.mpr ⟨_, List.mem_map_of_mem hn, rfl⟩

/-- Two joined names are all that is found in them and a character before them that is in no name. -/
theorem findPairs_joinedNames (hcolon : p ':' = false) (htable : table ≠ [])
    (htables : ∀ c ∈ table, p c = true) (hfield : field ≠ [])
    (hfields : ∀ c ∈ field, q c = true) {d : Char} (hd : p d = false) :
    (joinedNames p q).findPairs (d :: (table ++ ("::".toList ++ field))) = [(table, field)] := by
  have hbegin : ∀ rest, (joinedNames p q).matchAt none (d :: rest) = none := by
    intro rest
    cases hmatch : (joinedNames p q).matchAt none (d :: rest) with
    | none => rfl
    | some m =>
      obtain ⟨cs, after, gs, hcs, hreads, -⟩ := matchAt_sound hmatch
      obtain ⟨xs, ys, gs', rfl, -, ⟨hne, hxs⟩, -⟩ :=
        (reads_group_then fun _ _ _ _ => reads_oneOrMore).mp hreads
      obtain ⟨x, xs, rfl⟩ := List.exists_cons_of_ne_nil hne
      obtain ⟨rfl, -⟩ := List.cons.inj hcs
      rw [hxs d List.mem_cons_self] at hd
      cases hd
  have hmatch : (joinedNames p q).matchAt (some d) (table ++ ("::".toList ++ (field ++ []))) = _ :=
    matchAt_joinedNames hcolon htable htables hfield hfields (by simp) (some d)
  obtain ⟨c, cs, rfl⟩ := List.exists_cons_of_ne_nil htable
  rw [List.append_nil, List.cons_append] at hmatch
  have hlength : (cs ++ ("::".toList ++ field)).length ≤ (c :: cs).length + 2 + field.length - 1 := by
    have hdivider : "::".toList.length = 2 := rfl
    simp only [List.length_append, List.length_cons, hdivider]
    omega
  rw [findPairs, findAll, allFrom, hbegin, List.cons_append, allFrom, hmatch]
  dsimp only
  rw [allFrom_of_length_le hlength]
  rfl

end JoinedNames

/-! ## Pairs in a calculation -/

/-- A text names a field with a table, apart from other names. -/
def NamesPair (t table field : String) : Prop :=
  ∃ pre post : List Char,
    t.toList = pre ++ (table.toList ++ ("::".toList ++ (field.toList ++ post))) ∧
      (∀ c ∈ pre.getLast?, isTableName c = false ∧ c ≠ ':') ∧
      ∀ c ∈ post.head?, isName c = false

/-- A pair that stands apart from other names is found. -/
theorem mem_findPairs {t table field : String} (htable : IsPlain table) (hfield : IsPlain field)
    (h : NamesPair t table field) :
    (table.toList, field.toList) ∈ (pairPattern "::").findPairs t.toList := by
  obtain ⟨pre, post, ht, hpre, hpost⟩ := h
  rw [ht, pairPattern_eq]
  exact mem_findPairs_joinedNames (fun _ => isTableName_of_isName) (by decide)
    htable.toList_ne_nil
    (fun c hc => isTableName_of_isName (isName_of_isIdentifier (htable.2 c hc)))
    hfield.toList_ne_nil (fun c hc => isName_of_isIdentifier (hfield.2 c hc)) hpost hpre

/-- A pair that is found in a calculation is a use of the field that it leads to. -/
theorem mem_calculationUses_of_pair {s : Scope} {t table field key context : String}
    {own : Option String} (hkey : s.nearKey? table field = some key)
    (hpair : (table.toList, field.toList) ∈ (pairPattern "::").findPairs t.toList) :
    ⟨key, .calculation, context⟩ ∈ calculationUses s own context t := by
  have hqualified : ⟨key, .calculation, context⟩ ∈ qualifiedUses s context t.toList := by
    refine List.mem_filterMap.mpr ⟨_, hpair, ?_⟩
    dsimp only
    rw [String.ofList_toList, String.ofList_toList, hkey]
    rfl
  rw [calculationUses]
  split
  · rename_i hempty
    rw [List.isEmpty_iff.mp hempty] at hpair
    cases hpair
  · simp only [List.mem_append, hqualified, true_or]

end DesignAudit.FieldUse
