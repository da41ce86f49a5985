import DesignAudit.Proofs.Number.Size
import DesignAudit.Proofs.Run.Generated

/-!
# The places of sheets

Sheets of a report are told apart by their places: a sheet whose place is taken by an earlier one is
moved by ten, the next such sheet by twenty, and so on. `newPlace` says in one formula where a sheet
comes to stand (`entries_settled`). Only places from before the moves are known as taken, so a sheet may
be moved to the place of another one. Otherwise all sheets end up apart, and they are written in strictly
increasing order (`sheets_told_apart_iff`).
-/

namespace DesignAudit.Run

open Number Text

/-! ## Places that are taken -/

/-- The place of a sheet after sheets with the same place have been told apart, by the places of the
sheets before it: one whose place is taken is moved, the first such sheet by ten, the next one by twenty,
and so on. -/
def newPlace (before : List Binary) (o : Binary) : Binary :=
  if before.any o.eq then o.add (.ofInt (10 * ((repeated [] before).length + 1) : Nat)) else o

/-- The places that are known as taken after some sheets. -/
def takenAfter (seen : List Binary) : List Binary → List Binary
  | [] => seen
  | o :: rest => if seen.any o.eq then takenAfter seen rest else takenAfter (o :: seen) rest

theorem takenAfter_append (seen xs ys : List Binary) :
    takenAfter seen (xs ++ ys) = takenAfter (takenAfter seen xs) ys := by
  induction xs generalizing seen with
  | nil => rfl
  | cons o xs ih =>
    rw [List.cons_append, takenAfter, takenAfter, ih, ih]
    split
    · rfl
    · rfl

theorem repeated_append (seen xs ys : List Binary) :
    repeated seen (xs ++ ys) = repeated seen xs ++ repeated (takenAfter seen xs) ys := by
  induction xs generalizing seen with
  | nil => rfl
  | cons o xs ih =>
    rw [List.cons_append, repeated, repeated, takenAfter, ih, ih]
    split
    · rfl
    · rfl

variable {o : Binary} {before : List Binary}

/-- A place counts as taken exactly if it is that of an earlier sheet: of sheets with the same place
only the first is remembered, but it stands for all of them. -/
theorem any_takenAfter {seen xs : List Binary} (hseen : ∀ p ∈ seen, p.IsFinite)
    (hxs : ∀ p ∈ xs, p.IsFinite) (ho : o.IsFinite) :
    (takenAfter seen xs).any o.eq = (seen ++ xs).any o.eq := by
  induction xs generalizing seen with
  | nil => rw [takenAfter, List.append_nil]
  | cons p xs ih =>
    obtain ⟨hp, hxs⟩ := List.forall_mem_cons.mp hxs
    rw [takenAfter]
    by_cases htaken : seen.any p.eq
    · rw [if_pos htaken, ih hseen hxs]
      obtain ⟨q, hq, hpq⟩ := List.any_eq_true.mp htaken
      rw [List.any_append, List.any_append, List.any_cons]
      by_cases hop : o.eq p
      · have hoq : o.eq q := by
          rw [Binary.eq_iff_size ho.ne_undefined hp.ne_undefined] at hop
          rw [Binary.eq_iff_size hp.ne_undefined (hseen q hq).ne_undefined] at hpq
          rw [Binary.eq_iff_size ho.ne_undefined (hseen q hq).ne_undefined, hop, hpq]
        rw [List.any_eq_true.mpr ⟨q, hq, hoq⟩, Bool.true_or, Bool.true_or]
      · rw [Bool.eq_false_iff.mpr hop, Bool.false_or]
    · rw [if_neg htaken, ih (List.forall_mem_cons.mpr ⟨hp, hseen⟩) hxs]
      simp only [List.any_append, List.any_cons]
      ac_rfl

/-! ## The places after sheets have been told apart -/

/-- The entries after each sheet whose place was seen before has been moved. -/
def shiftedFrom (seen : List Binary) (step : Nat) : List (String × Binary) → List (String × Binary)
  | [] => []
  | (sheet, o) :: rest =>
    if seen.any o.eq then (sheet, o.add (.ofInt step)) :: shiftedFrom seen (step + 10) rest
    else (sheet, o) :: shiftedFrom (o :: seen) step rest

theorem put_append_cons {α : Type} {before : List (String × α)} {name : String}
    (h : name ∉ before.map (·.1)) (a b : α) (rest : List (String × α)) :
    Register.put name a (before ++ (name, b) :: rest) = before ++ (name, a) :: rest := by
  induction before with
  | nil => simp [Register.put]
  | cons e before ih =>
    rw [List.map_cons, List.mem_cons, not_or] at h
    rw [List.cons_append, Register.put, if_neg (by simpa using Ne.symm h.1), ih h.2]
    rfl

theorem entries_foldl_moves {before es : List (String × Binary)}
    (hnodup : ((before ++ es).map (·.1)).Nodup) (seen : List Binary) (step : Nat) :
    ((movesFrom seen step es).foldl (fun r m => r.insert m.sheet m.new)
      (⟨before ++ es⟩ : Register Binary)).entries = before ++ shiftedFrom seen step es := by
  induction es generalizing before seen step with
  | nil => rfl
  | cons e es ih =>
    obtain ⟨sheet, o⟩ := e
    have hfresh : sheet ∉ before.map (·.1) := by
      intro hmem
      rw [List.map_append] at hnodup
      exact (List.nodup_append.mp hnodup).2.2 sheet hmem sheet List.mem_cons_self rfl
    rw [movesFrom, shiftedFrom]
    by_cases htaken : seen.any o.eq
    · rw [if_pos htaken, if_pos htaken, List.foldl_cons]
      have hinsert : (⟨before ++ (sheet, o) :: es⟩ : Register Binary).insert sheet
          (o.add (.ofInt step)) = ⟨(before ++ [(sheet, o.add (.ofInt step))]) ++ es⟩ := by
        rw [Register.insert, put_append_cons hfresh, List.append_assoc]
        rfl
      rw [hinsert, ih (by simpa using hnodup), List.append_assoc]
      rfl
    · rw [if_neg htaken, if_neg htaken]
      have hnodup' : (((before ++ [(sheet, o)]) ++ es).map (·.1)).Nodup := by
        rwa [List.append_assoc]
      have hshift := ih hnodup' (o :: seen) step
      rw [List.append_assoc, List.append_assoc] at hshift
      exact hshift

theorem repeated_append_singleton (hbefore : ∀ p ∈ before, p.IsFinite) (ho : o.IsFinite) :
    repeated [] (before ++ [o]) =
      if before.any o.eq then repeated [] before ++ [o] else repeated [] before := by
  rw [repeated_append, repeated, any_takenAfter (List.forall_mem_nil _) hbefore ho,
    List.nil_append, repeated, repeated]
  split
  · rfl
  · rw [List.append_nil]

theorem takenAfter_append_singleton (hbefore : ∀ p ∈ before, p.IsFinite) (ho : o.IsFinite) :
    takenAfter [] (before ++ [o]) =
      if before.any o.eq then takenAfter [] before else o :: takenAfter [] before := by
  rw [takenAfter_append, takenAfter, any_takenAfter (List.forall_mem_nil _) hbefore ho,
    List.nil_append, takenAfter, takenAfter]

/-- The step from one moved sheet to the next keeps count of the sheets that have been moved. -/
theorem shiftedFrom_eq {es : List (String × Binary)}
    (hbefore : ∀ p ∈ before, p.IsFinite) (hes : ∀ e ∈ es, e.2.IsFinite) :
    shiftedFrom (takenAfter [] before) (10 * ((repeated [] before).length + 1)) es =
      es.mapIdx fun i e => (e.1, newPlace (before ++ (es.map (·.2)).take i) e.2) := by
  induction es generalizing before with
  | nil => rfl
  | cons e es ih =>
    obtain ⟨sheet, o⟩ := e
    obtain ⟨ho, hes⟩ := List.forall_mem_cons.mp hes
    have hlater : ∀ p ∈ before ++ [o], p.IsFinite :=
      List.forall_mem_append.mpr ⟨hbefore, List.forall_mem_singleton.mpr ho⟩
    have hrest := ih hlater hes
    rw [takenAfter_append_singleton hbefore ho, repeated_append_singleton hbefore ho] at hrest
    rw [shiftedFrom, any_takenAfter (List.forall_mem_nil _) hbefore ho, List.nil_append,
      List.mapIdx_cons]
    simp only [List.map_cons, List.take_zero, List.take_succ_cons, List.append_nil]
    simp only [List.append_assoc, List.singleton_append] at hrest
    rw [newPlace, ← hrest]
    by_cases htaken : before.any o.eq
    · simp only [if_pos htaken, List.length_append, List.length_singleton]
      rfl
    · simp only [if_neg htaken]

section Settled

variable {places : Register Binary} (hplaces : places.names.Nodup)
  (hfinite : ∀ o ∈ places.values, o.IsFinite)

include hplaces hfinite

/-- The places after sheets with the same place have been told apart. -/
theorem entries_settled : (settled places).entries =
    places.entries.mapIdx fun i e => (e.1, newPlace (places.values.take i) e.2) := by
  have hmoved : (settled places).entries = shiftedFrom [] 10 places.entries :=
    @entries_foldl_moves [] places.entries hplaces [] 10
  have hshifted := @shiftedFrom_eq [] places.entries (List.forall_mem_nil _)
    (List.forall_mem_map.mp hfinite)
  exact hmoved.trans hshifted

theorem names_settled : (settled places).names = places.names := by
  rw [Register.names, entries_settled hplaces hfinite]
  apply List.ext_getElem?
  intro i
  rw [List.getElem?_map, List.getElem?_mapIdx, Option.map_map, Register.names, List.getElem?_map]
  rfl

theorem values_settled : (settled places).values =
    places.values.mapIdx fun i o => newPlace (places.values.take i) o := by
  rw [Register.values, entries_settled hplaces hfinite]
  apply List.ext_getElem?
  intro i
  rw [List.getElem?_map, List.getElem?_mapIdx, Option.map_map, List.getElem?_mapIdx,
    Register.values, List.getElem?_map, Option.map_map]
  rfl

theorem ne_undefined_of_mem_settled {o : Binary} (ho : o ∈ (settled places).values) :
    o ≠ .undefined := by
  rw [values_settled hplaces hfinite] at ho
  obtain ⟨i, hi, rfl⟩ := List.mem_mapIdx.mp ho
  have hold := hfinite _ (List.getElem_mem hi)
  rw [newPlace]
  split
  · exact hold.add_ne_undefined (Binary.nearest_ne_undefined _ _ _)
  · exact hold.ne_undefined

theorem placeOf_settled_ne_undefined (sheet : String) :
    placeOf (settled places) sheet ≠ .undefined := by
  rw [placeOf, Register.getD]
  cases hget : (settled places).get? sheet with
  | none => exact Binary.noConfusion
  | some o =>
    have hmem : o ∈ (settled places).values :=
      List.mem_map_of_mem (f := (·.2)) (Register.mem_of_lookup hget)
    exact ne_undefined_of_mem_settled hplaces hfinite hmem

end Settled

/-! ## The order of the sheets -/

section Arranged

variable {places : Register Binary} (hplaces : ∀ sheet, placeOf places sheet ≠ .undefined)

/-- Sheets stand by their places, and sheets with the same place by their names. -/
theorem comesFirst_iff {a b : Binary × String} (ha : a.1 ≠ .undefined) (hb : b.1 ≠ .undefined) :
    comesFirst a b = true ↔ a.1.size < b.1.size ∨ a.1.size = b.1.size ∧ a.2 ≤ b.2 := by
  rw [comesFirst]
  by_cases heq : b.1.eq a.1
  · have hsize := (Binary.eq_iff_size hb ha).mp heq
    rw [if_pos heq, Bool.not_eq_true', decide_eq_false_iff_not, String.not_lt]
    simp [hsize]
  · have hsize := mt (Binary.eq_iff_size hb ha).mpr heq
    rw [if_neg heq, Bool.not_eq_true', Bool.eq_false_iff, ne_eq, Binary.lt_iff_size hb ha, not_lt]
    constructor
    · intro hle
      exact .inl (lt_of_le_of_ne hle (Ne.symm hsize))
    · rintro (hlt | ⟨hsame, -⟩)
      · exact hlt.le
      · exact absurd hsame.symm hsize

include hplaces

theorem pairwise_arranged (sheets : Register Leaf) :
    (arranged places sheets).Pairwise fun a b =>
      comesFirst (placeOf places a.1, a.1) (placeOf places b.1, b.1) = true := by
  refine List.pairwise_mergeSort (fun a b c => ?_) (fun a b => ?_) sheets.entries
  · rw [comesFirst_iff (hplaces _) (hplaces _), comesFirst_iff (hplaces _) (hplaces _),
      comesFirst_iff (hplaces _) (hplaces _)]
    rintro (hab | ⟨hab, hab'⟩) (hbc | ⟨hbc, hbc'⟩)
    · exact .inl (hab.trans hbc)
    · exact .inl (hbc ▸ hab)
    · exact .inl (hab ▸ hbc)
    · exact .inr ⟨hab.trans hbc, String.le_trans hab' hbc'⟩
  · rw [Bool.or_eq_true, comesFirst_iff (hplaces _) (hplaces _),
      comesFirst_iff (hplaces _) (hplaces _)]
    rcases lt_trichotomy (placeOf places a.1).size (placeOf places b.1).size with h | h | h
    · exact .inl (.inl h)
    · rcases String.le_total a.1 b.1 with hname | hname
      · exact .inl (.inr ⟨h, hname⟩)
      · exact .inr (.inr ⟨h.symm, hname⟩)
    · exact .inr (.inl h)

/-- The sheets stand in strictly increasing order exactly if no two of them have the same place. -/
theorem increasing_arranged_iff (sheets : Register Leaf) :
    (arranged places sheets).Pairwise
        (fun a b => (placeOf places a.1).lt (placeOf places b.1) = true) ↔
      ((arranged places sheets).map fun e => (placeOf places e.1).size).Nodup := by
  rw [List.Nodup, List.pairwise_map]
  constructor
  · refine List.Pairwise.imp fun hlt => ?_
    exact ((Binary.lt_iff_size (hplaces _) (hplaces _)).mp hlt).ne
  · intro hne
    refine ((pairwise_arranged hplaces sheets).and hne).imp ?_
    rintro a b ⟨hfirst, hne⟩
    rcases (comesFirst_iff (hplaces _) (hplaces _)).mp hfirst with hlt | ⟨hsame, -⟩
    · exact (Binary.lt_iff_size (hplaces _) (hplaces _)).mpr hlt
    · exact absurd hsame hne

end Arranged

theorem map_placeOf_names {places : Register Binary} (hplaces : places.names.Nodup) :
    places.names.map (placeOf places) = places.values := by
  rw [Register.names, Register.values, List.map_map]
  apply List.map_congr_left
  intro e he
  show (places.get? e.1).getD _ = e.2
  rw [Register.get?_of_mem_entries hplaces he]
  rfl

/-! ## Sheets that clash -/

/-- Two sheets clash: one of them is moved, and then both have the same place. -/
def Clash (vs : List Binary) : Prop :=
  ∃ i j a b, i < j ∧ vs[i]? = some a ∧ vs[j]? = some b ∧
    ((vs.take i).any a.eq = true ∨ (vs.take j).any b.eq = true) ∧
    (newPlace (vs.take i) a).eq (newPlace (vs.take j) b) = true

/-- After they have been told apart two sheets still have the same place exactly if they clash. -/
theorem apart_settled_iff {places : Register Binary} (hplaces : places.names.Nodup)
    (hfinite : ∀ o ∈ places.values, o.IsFinite) :
    (settled places).values.Pairwise (fun a b => a.eq b = false) ↔ ¬ Clash places.values := by
  rw [values_settled hplaces hfinite, List.pairwise_iff_getElem]
  simp only [List.length_mapIdx, List.getElem_mapIdx]
  constructor
  · rintro hapart ⟨i, j, a, b, hij, ha, hb, -, heq⟩
    obtain ⟨hi, rfl⟩ := List.getElem?_eq_some_iff.mp ha
    obtain ⟨hj, rfl⟩ := List.getElem?_eq_some_iff.mp hb
    exact Bool.eq_false_iff.mp (hapart i j hi hj hij) heq
  · intro hclash i j hi hj hij
    rw [Bool.eq_false_iff]
    intro heq
    refine hclash ⟨i, j, _, _, hij, List.getElem?_eq_getElem hi, List.getElem?_eq_getElem hj, ?_, heq⟩
    -- two sheets that are not moved have different places, the earlier one being known as taken
    by_contra hmoved
    obtain ⟨hfirst, hsecond⟩ := not_or.mp hmoved
    rw [newPlace, if_neg hfirst, newPlace, if_neg hsecond] at heq
    have ha := (hfinite _ (List.getElem_mem hi)).ne_undefined
    have hb := (hfinite _ (List.getElem_mem hj)).ne_undefined
    have hmem : places.values[i] ∈ places.values.take j :=
      List.mem_of_getElem? ((List.getElem?_take_of_lt hij).trans (List.getElem?_eq_getElem hi))
    rw [Binary.eq_iff_size ha hb] at heq
    exact hsecond (List.any_eq_true.mpr ⟨_, hmem, (Binary.eq_iff_size hb ha).mpr heq.symm⟩)

/-- The places of the arranged sheets are those of the register. -/
theorem perm_map_placeOf_arranged {places : Register Binary} {sheets : Register Leaf}
    (hplaces : places.names.Nodup) (hsheets : sheets.names.Nodup)
    (hsame : ∀ sheet, sheet ∈ sheets.names ↔ sheet ∈ places.names) :
    ((arranged places sheets).map fun e => placeOf places e.1).Perm places.values := by
  have hnames : sheets.names.Perm places.names :=
    (List.perm_ext_iff_of_nodup hsheets hplaces).mpr hsame
  have harranged : ((arranged places sheets).map (·.1)).Perm sheets.names :=
    (List.mergeSort_perm _ _).map _
  rw [← map_placeOf_names hplaces]
  have hmap := (harranged.trans hnames).map (placeOf places)
  rwa [List.map_map] at hmap

/-- **When sheets are told apart.** Let each sheet have a finite place. Then a sheet keeps its place if
no earlier one has it, and the other sheets are moved by ten, twenty, and so on. Each sheet is written
once, and a report without a fault holds one page for each in the order of their places. Afterwards
no two sheets have the same place, and the sheets are written in strictly increasing order, exactly if
no sheet is moved to where another one comes to stand. -/
theorem sheets_told_apart_iff {places : Register Binary} {sheets : Register Leaf}
    (hplaces : places.names.Nodup) (hsheets : sheets.names.Nodup)
    (hsame : ∀ sheet, sheet ∈ sheets.names ↔ sheet ∈ places.names)
    (hfinite : ∀ o ∈ places.values, o.IsFinite) :
    (settled places).names = places.names ∧
    (∀ i o, places.values[i]? = some o →
      (settled places).values[i]? = some (newPlace (places.values.take i) o)) ∧
    (∀ i o, places.values[i]? = some o → (∀ p ∈ places.values.take i, o.eq p = false) →
      (settled places).values[i]? = some o) ∧
    (arranged (settled places) sheets).Perm sheets.entries ∧
    (∀ o m base total w w', Gives (generate o m sheets base total (some places)) w () w' →
      ∃ pages, w'.files.get? (below (below w.home "Exports") (lastName base ++ "_full_report.xlsx")) =
          some (.report pages) ∧
        List.Forall₂ Shows (arranged (settled places) sheets) pages) ∧
    ((settled places).values.Pairwise (fun a b => a.eq b = false) ↔ ¬ Clash places.values) ∧
    ((arranged (settled places) sheets).Pairwise (fun a b =>
        (placeOf (settled places) a.1).lt (placeOf (settled places) b.1) = true) ↔
      ¬ Clash places.values) := by
  have hnames := names_settled hplaces hfinite
  have hvalue : ∀ i o, places.values[i]? = some o →
      (settled places).values[i]? = some (newPlace (places.values.take i) o) := by
    intro i o ho
    rw [values_settled hplaces hfinite, List.getElem?_mapIdx, ho]
    rfl
  have hdefined := placeOf_settled_ne_undefined hplaces hfinite
  have happart := apart_settled_iff hplaces hfinite
  refine ⟨hnames, hvalue, fun i o ho hfirst => ?_, List.mergeSort_perm _ _,
    fun _ _ _ _ _ _ h => exists_report_of_generate h, happart, ?_⟩
  · have htaken : ¬ (places.values.take i).any o.eq = true := by
      rw [List.any_eq_true]
      rintro ⟨p, hp, heq⟩
      exact Bool.eq_false_iff.mp (hfirst p hp) heq
    rw [hvalue i o ho, newPlace, if_neg htaken]
  · have hperm := perm_map_placeOf_arranged (hnames ▸ hplaces) hsheets (hnames ▸ hsame)
    rw [increasing_arranged_iff hdefined, ← happart]
    have hsizes := hperm.map Binary.size
    rw [List.map_map] at hsizes
    rw [show (fun e : String × Leaf => (placeOf (settled places) e.1).size) =
      Binary.size ∘ fun e => placeOf (settled places) e.1 from rfl, hsizes.nodup_iff, List.Nodup,
      List.pairwise_map]
    refine List.Pairwise.iff_of_mem fun ha hb => ?_
    rw [Bool.eq_false_iff, ne_eq, ne_eq, Binary.eq_iff_size
      (ne_undefined_of_mem_settled hplaces hfinite ha) (ne_undefined_of_mem_settled hplaces hfinite hb)]

/-- Two sheets at the tenth place and one at the twentieth. -/
def crowdedPlaces : Register Binary := .ofList [("A", .ofInt 10), ("B", .ofInt 10), ("C", .ofInt 20)]

def crowdedSheets : Register Leaf :=
  .ofList (["A", "B", "C"].map (·, ⟨[[("Name", .text "x")]], {}⟩))

/-- The second sheet is moved to the place of the third one. -/
theorem crowded_not_apart :
    ((settled crowdedPlaces).values.map fun o => o.eq (.ofInt 20)) = [false, true, true] ∧
    ¬ (settled crowdedPlaces).values.Pairwise (fun a b => a.eq b = false) ∧
    ¬ (arranged (settled crowdedPlaces) crowdedSheets).Pairwise (fun a b =>
        (placeOf (settled crowdedPlaces) a.1).lt (placeOf (settled crowdedPlaces) b.1) = true) := by
  obtain ⟨-, -, -, -, -, happart, hincreasing⟩ :=
    @sheets_told_apart_iff crowdedPlaces crowdedSheets (Register.nodup_names_ofList _)
      (Register.nodup_names_ofList _) (fun _ => Iff.rfl) (by decide +kernel)
  have hclash : Clash crowdedPlaces.values :=
    ⟨1, 2, _, _, by decide, rfl, rfl, .inl (by decide +kernel), by decide +kernel⟩
  exact ⟨by decide +kernel, fun h => happart.mp h hclash, fun h => hincreasing.mp h hclash⟩

end DesignAudit.Run
