import DesignAudit.Proofs.Text.Order
import DesignAudit.Register
import Mathlib.Data.List.Nodup

/-!
# The theory of registers

A register answers like a map in which the last entry of a name counts (`get?_ofList`), its names
are pairwise distinct (`nodup_names_ofList`) and stand in the order of their first entries
(`names_ofList`), and it has a name exactly if one was entered (`has_ofList`).
-/

namespace DesignAudit.Register

variable {α : Type}

/-! ## One entry -/

@[simp]
theorem lookup_put_self (name : String) (a : α) (es : List (String × α)) :
    (put name a es).lookup name = some a := by
  induction es with
  | nil => simp [put]
  | cons e rest ih =>
    obtain ⟨n, b⟩ := e
    rw [put]
    split
    · simp
    · rename_i hne
      have hbeq : (name == n) = false := by simpa [BEq.comm] using hne
      rw [List.lookup_cons, hbeq]
      exact ih

variable {name : String} {β : Type}

theorem lookup_put_of_ne {name other : String} (h : other ≠ name) (a : α)
    (es : List (String × α)) : (put name a es).lookup other = es.lookup other := by
  have hbeq : (other == name) = false := by simpa using h
  induction es with
  | nil => simp [put, h]
  | cons e rest ih =>
    obtain ⟨n, b⟩ := e
    rw [put]
    split
    · rename_i heq
      obtain rfl : n = name := by simpa using heq
      rw [List.lookup_cons, List.lookup_cons, hbeq]
    · rw [List.lookup_cons, List.lookup_cons, ih]

variable (r : Register α) (xs : List (String × α))

theorem get?_insert (name other : String) (a : α) :
    (r.insert name a).get? other = if other = name then some a else r.get? other := by
  rw [get?, insert]
  split
  · rename_i heq
    rw [heq, lookup_put_self]
  · rename_i hne
    exact lookup_put_of_ne hne a r.entries

@[simp]
theorem get?_empty (name : String) : (empty : Register α).get? name = none := rfl

@[simp]
theorem has_empty (name : String) : (empty : Register α).has name = false := rfl

theorem has_insert (name other : String) (a : α) :
    (r.insert name a).has other = (other == name || r.has other) := by
  rw [has, get?_insert, has]
  split <;> simp_all

theorem get?_update (name other : String) (default : α) (f : α → α) :
    (r.update name default f).get? other =
      if other = name then some (f (r.getD name default)) else r.get? other :=
  get?_insert r name other _

theorem getD_insert (name other : String) (a default : α) :
    (r.insert name a).getD other default = if other = name then a else r.getD other default := by
  rw [getD, get?_insert, apply_ite (Option.getD · default)]
  rfl

theorem getD_of_not_has {r : Register α} (h : ¬ r.has name = true) (default : α) :
    r.getD name default = default := by
  rw [has, Option.not_isSome_iff_eq_none] at h
  rw [getD, h, Option.getD_none]

theorem has_update (name other : String) (default : α) (f : α → α) :
    (r.update name default f).has other = (other == name || r.has other) :=
  has_insert r name other _

theorem mem_put {a : α} {es : List (String × α)} {e : String × α}
    (h : e ∈ put name a es) : e = (name, a) ∨ e ∈ es := by
  induction es with
  | nil => exact .inl (List.mem_singleton.mp h)
  | cons d rest ih =>
    rw [put] at h
    split at h
    · rcases List.mem_cons.mp h with rfl | h
      · exact .inl rfl
      · exact .inr (List.mem_cons_of_mem d h)
    · rcases List.mem_cons.mp h with rfl | h
      · exact .inr List.mem_cons_self
      · exact (ih h).imp_right (List.mem_cons_of_mem d)

theorem mem_of_lookup {es : List (String × α)} {a : α}
    (h : es.lookup name = some a) : (name, a) ∈ es := by
  obtain ⟨before, after, hes, -⟩ := List.lookup_eq_some_iff.mp h
  rw [hes]
  simp

/-! ## Several entries -/

theorem insertAll_cons (x : String × α) (xs : List (String × α)) :
    r.insertAll (x :: xs) = (r.insert x.1 x.2).insertAll xs := rfl

/-- Of the entries of a name the last one counts, and what was there before counts only where no
entry was made. -/
theorem get?_insertAll (name : String) :
    (r.insertAll xs).get? name = (xs.reverse.lookup name).or (r.get? name) := by
  induction xs generalizing r with
  | nil => rfl
  | cons x rest ih =>
    obtain ⟨n, a⟩ := x
    rw [insertAll_cons, ih, get?_insert, List.reverse_cons, List.lookup_append, Option.or_assoc]
    congr 1
    by_cases h : name = n
    · subst h
      simp
    · have hbeq : (name == n) = false := by simpa using h
      simp [h, List.lookup_cons, hbeq]

theorem get?_ofList (name : String) : (ofList xs).get? name = xs.reverse.lookup name := by
  rw [ofList, get?_insertAll, get?_empty, Option.or_none]

theorem isSome_lookup_iff {xs : List (String × α)} :
    (xs.lookup name).isSome = true ↔ ∃ a, (name, a) ∈ xs := by
  rw [List.lookup_isSome_iff]
  constructor
  · rintro ⟨p, hp, h⟩
    obtain rfl : name = p.1 := by simpa using h
    exact ⟨p.2, hp⟩
  · rintro ⟨a, h⟩
    exact ⟨(name, a), h, by simp⟩

theorem has_insertAll (name : String) :
    (r.insertAll xs).has name = true ↔ (∃ a, (name, a) ∈ xs) ∨ r.has name = true := by
  rw [has, get?_insertAll, Option.isSome_or, Bool.or_eq_true, isSome_lookup_iff, has]
  simp only [List.mem_reverse]

@[simp]
theorem has_ofList (name : String) : (ofList xs).has name = true ↔ ∃ a, (name, a) ∈ xs := by
  rw [ofList, has_insertAll]
  simp

/-- Of the members that make an entry for a name the last one counts. -/
theorem get?_ofList_filterMap {f : β → Option (String × α)} {xs : List β} {a : α} :
    (ofList (xs.filterMap f)).get? name = some a ↔
      ∃ earlier x later, xs = earlier ++ x :: later ∧ f x = some (name, a) ∧
        ∀ y ∈ later, ∀ b, f y ≠ some (name, b) := by
  rw [get?_ofList, ← List.filterMap_reverse, List.lookup_eq_some_iff]
  constructor
  · rintro ⟨later, earlier, hsplit, hlater⟩
    obtain ⟨later', mid, hmid, rfl, hcons⟩ := List.filterMap_eq_append_iff.mp hsplit
    obtain ⟨skipped, x, earlier', rfl, hskipped, hx, -⟩ := List.filterMap_eq_cons_iff.mp hcons
    refine ⟨earlier'.reverse, x, (later' ++ skipped).reverse, ?_, hx, fun y hy b hb => ?_⟩
    · rw [← List.reverse_reverse xs, hmid]
      simp
    · rw [List.mem_reverse, List.mem_append] at hy
      rcases hy with hy | hy
      · simpa using hlater _ (List.mem_filterMap.mpr ⟨y, hy, hb⟩)
      · rw [hskipped y hy] at hb
        cases hb
  · rintro ⟨earlier, x, later, rfl, hx, hlater⟩
    refine ⟨later.reverse.filterMap f, earlier.reverse.filterMap f, ?_, fun p hp => ?_⟩
    · rw [List.reverse_append, List.reverse_cons, List.append_assoc, List.filterMap_append,
        List.singleton_append, List.filterMap_cons_some hx]
    · obtain ⟨y, hy, hp⟩ := List.mem_filterMap.mp hp
      rw [bne_iff_ne]
      rintro rfl
      exact hlater y (List.mem_reverse.mp hy) p.2 hp

/-- Where all entries of a name are the same, this is the one that counts. -/
theorem get?_ofList_of_unique {xs : List (String × α)} {a : α}
    (hmem : (name, a) ∈ xs) (hunique : ∀ b, (name, b) ∈ xs → b = a) :
    (ofList xs).get? name = some a := by
  obtain ⟨b, hb⟩ := Option.isSome_iff_exists.mp ((has_ofList xs name).mpr ⟨a, hmem⟩)
  rw [hb, hunique b (List.mem_reverse.mp (mem_of_lookup (get?_ofList xs name ▸ hb)))]

/-- What has an entry after a fold whose steps make at most one entry each. -/
theorem has_foldl {step : Register α → β → Register α} (key : β → Option String)
    (hstep : ∀ r b name, (step r b).has name = true ↔ key b = some name ∨ r.has name = true)
    (bs : List β) (r : Register α) (name : String) :
    (bs.foldl step r).has name = true ↔
      (∃ b ∈ bs, key b = some name) ∨ r.has name = true := by
  induction bs generalizing r with
  | nil => simp
  | cons b bs ih =>
    rw [List.foldl_cons, ih, hstep, ← or_assoc]
    simp only [List.mem_cons, exists_eq_or_imp]
    rw [@or_comm (key b = some name)]

/-- After a fold of changes the entry of a name has gone through the changes of this name, and no other
ones. -/
theorem getD_foldl_update (key : β → String) (change : β → α → α) (default : α)
    (bs : List β) (r : Register α) (name : String) :
    (bs.foldl (fun r b => r.update (key b) default (change b)) r).getD name default =
      (bs.filter (key · == name)).foldl (fun a b => change b a) (r.getD name default) := by
  induction bs generalizing r with
  | nil => rfl
  | cons b bs ih =>
    rw [List.foldl_cons, ih, update, getD_insert, List.filter_cons]
    by_cases h : name = key b
    · subst h
      rw [if_pos rfl, if_pos (beq_self_eq_true _), List.foldl_cons]
    · rw [if_neg h, if_neg (by simpa using Ne.symm h)]

/-! ## Names -/

theorem names_put (name : String) (a : α) (es : List (String × α)) :
    (put name a es).map (·.1) =
      if name ∈ es.map (·.1) then es.map (·.1) else es.map (·.1) ++ [name] := by
  induction es with
  | nil => simp [put]
  | cons e rest ih =>
    obtain ⟨n, b⟩ := e
    rw [put]
    split
    · rename_i heq
      obtain rfl : n = name := by simpa using heq
      simp
    · rename_i hne
      have hne' : name ≠ n := by
        intro h
        exact hne (by simp [h])
      simp only [List.map_cons, ih, List.mem_cons, hne', false_or]
      split <;> simp

theorem names_insertAll : (r.insertAll xs).names = (xs.map (·.1)).foldl Text.keepNew r.names := by
  induction xs generalizing r with
  | nil => rfl
  | cons x xs ih =>
    have hinsert : (r.insert x.1 x.2).names = Text.keepNew r.names x.1 := by
      rw [names, insert, names_put, Text.keepNew]
      simp only [List.contains_iff_mem]
      rfl
    rw [insertAll_cons, ih, hinsert]
    rfl

/-- The names of a register stand in the order in which they were first entered. -/
theorem names_ofList : (ofList xs).names = Text.distinct (xs.map (·.1)) :=
  names_insertAll empty xs

theorem nodup_names_insertAll {r : Register α} (h : r.names.Nodup) (xs : List (String × α)) :
    (r.insertAll xs).names.Nodup := by
  rw [names_insertAll]
  exact Text.nodup_foldl_keepNew h

theorem nodup_names_insert {r : Register α} (h : r.names.Nodup) (name : String) (a : α) :
    (r.insert name a).names.Nodup :=
  nodup_names_insertAll h [(name, a)]

theorem nodup_names_ofList : (ofList xs).names.Nodup :=
  nodup_names_insertAll (r := empty) List.nodup_nil xs

theorem names_insert_of_mem {r : Register α} (h : name ∈ r.names) (a : α) :
    (r.insert name a).names = r.names := by
  rw [names, insert, names_put]
  exact if_pos h

/-- Entries for known names leave the names alone. -/
theorem names_insertAll_of_mem {r : Register α} {xs : List (String × α)}
    (h : ∀ x ∈ xs, x.1 ∈ r.names) : (r.insertAll xs).names = r.names := by
  induction xs generalizing r with
  | nil => rfl
  | cons x rest ih =>
    have hx : (r.insert x.1 x.2).names = r.names :=
      names_insert_of_mem (h x List.mem_cons_self) x.2
    rw [insertAll_cons, ih fun y hy => hx ▸ h y (List.mem_cons_of_mem x hy), hx]

/-- Where the names are distinct, every entry is the one that counts. -/
theorem get?_of_mem_entries {r : Register α} (hnodup : r.names.Nodup) {a : α}
    (h : (name, a) ∈ r.entries) : r.get? name = some a := by
  obtain ⟨before, after, hsplit⟩ := List.append_of_mem h
  refine List.lookup_eq_some_iff.mpr ⟨before, after, hsplit, fun p hp => ?_⟩
  rw [names, hsplit, List.map_append, List.map_cons, List.nodup_middle, List.nodup_cons] at hnodup
  rw [bne_iff_ne]
  rintro rfl
  exact hnodup.1 (List.mem_append_left _ (List.mem_map.mpr ⟨p, hp, rfl⟩))

theorem mem_names_iff {r : Register α} :
    name ∈ r.names ↔ r.has name = true := by
  rw [has, get?, isSome_lookup_iff, names, List.mem_map]
  constructor
  · rintro ⟨⟨n, a⟩, hmem, rfl⟩
    exact ⟨a, hmem⟩
  · rintro ⟨a, hmem⟩
    exact ⟨(name, a), hmem, rfl⟩

end DesignAudit.Register
