import DesignAudit.Text.Order
import Mathlib.Data.List.Perm.Basic

/-!
# Sorting

Rows are arranged by sorting them several times. Sorting neither adds nor drops a member, so what a
report says of its rows can be read off the rows before they are arranged. It is stable: members with
equal keys keep their order (`filter_sortBy`), so that the sorting before it decides among them
(`sortBy_pairwise_then`). Of a list with repetitions the distinct members are kept
(`mem_distinct`, `nodup_distinct`), in the order of their first places (`pairwise_distinct`).
-/

namespace DesignAudit.Text

variable {α κ : Type} [Ord κ] (key : α → κ)

theorem sortBy_perm (xs : List α) : (sortBy key xs).Perm xs :=
  List.mergeSort_perm xs _

@[simp]
theorem mem_sortBy {key : α → κ} {xs : List α} {x : α} : x ∈ sortBy key xs ↔ x ∈ xs :=
  (sortBy_perm key xs).mem_iff

@[simp]
theorem sortBy_nil : sortBy key [] = [] :=
  List.Perm.eq_nil (sortBy_perm key [])

/-! ## Distinct members -/

/-- Keeps a member unless it is among those seen. -/
def keepNew (seen : List String) (x : String) : List String :=
  if seen.contains x then seen else seen ++ [x]

theorem mem_keepNew {seen : List String} {x y : String} :
    y ∈ keepNew seen x ↔ y ∈ seen ∨ y = x := by
  rw [keepNew]
  split
  · rename_i hseen
    rw [List.contains_iff_mem] at hseen
    exact ⟨.inl, fun h => h.elim id fun heq => heq ▸ hseen⟩
  · rw [List.mem_append, List.mem_singleton]

theorem mem_foldl_keepNew {xs seen : List String} {y : String} :
    y ∈ xs.foldl keepNew seen ↔ y ∈ seen ∨ y ∈ xs := by
  induction xs generalizing seen with
  | nil => simp
  | cons x xs ih => rw [List.foldl_cons, ih, mem_keepNew, List.mem_cons, or_assoc]

theorem mem_distinct {xs : List String} {y : String} : y ∈ distinct xs ↔ y ∈ xs := by
  refine (@mem_foldl_keepNew xs [] y).trans ?_
  simp

theorem nodup_foldl_keepNew {xs seen : List String} (h : seen.Nodup) :
    (xs.foldl keepNew seen).Nodup := by
  induction xs generalizing seen with
  | nil => exact h
  | cons x xs ih =>
    refine ih ?_
    rw [keepNew]
    split
    · exact h
    · rename_i hnew
      rw [List.contains_iff_mem] at hnew
      exact List.nodup_append.mpr ⟨h, List.pairwise_singleton _ x, fun a ha b hb hab =>
        hnew (List.mem_singleton.mp hb ▸ hab ▸ ha)⟩

theorem nodup_distinct (xs : List String) : (distinct xs).Nodup :=
  nodup_foldl_keepNew List.nodup_nil

/-- Members that have been kept stand in the order of their first places in the list. -/
theorem pairwise_foldl_keepNew {xs seen before : List String}
    (hbefore : ∀ x, x ∈ seen ↔ x ∈ before)
    (h : seen.Pairwise fun a b => before.idxOf a < before.idxOf b) :
    (xs.foldl keepNew seen).Pairwise fun a b =>
      (before ++ xs).idxOf a < (before ++ xs).idxOf b := by
  induction xs generalizing seen before with
  | nil => simpa using h
  | cons x xs ih =>
    rw [List.foldl_cons, List.append_cons]
    have hold : ∀ a ∈ seen, (before ++ [x]).idxOf a = before.idxOf a := fun a ha =>
      List.idxOf_append_of_mem ((hbefore a).mp ha)
    refine ih (fun y => ?_) ?_
    · rw [mem_keepNew, hbefore, List.mem_append, List.mem_singleton]
    · rw [keepNew]
      have hseen : seen.Pairwise fun a b => (before ++ [x]).idxOf a < (before ++ [x]).idxOf b :=
        h.imp_of_mem fun ha hb hab => by rwa [hold _ ha, hold _ hb]
      split
      · exact hseen
      · rename_i hnew
        rw [List.contains_iff_mem, hbefore] at hnew
        refine List.pairwise_append.mpr ⟨hseen, List.pairwise_singleton _ x, fun a ha b hb => ?_⟩
        obtain rfl := List.mem_singleton.mp hb
        rw [hold a ha, List.idxOf_append_of_notMem hnew]
        exact Nat.lt_of_lt_of_le (List.idxOf_lt_length_of_mem ((hbefore a).mp ha))
          (Nat.le_add_right _ _)

theorem pairwise_distinct (xs : List String) :
    (distinct xs).Pairwise fun a b => xs.idxOf a < xs.idxOf b :=
  pairwise_foldl_keepNew (fun _ => Iff.rfl) .nil

/-! ## The order after sorting -/

variable [Std.TransOrd κ]

theorem isLE_total (a b : κ) : ((compare a b).isLE || (compare b a).isLE) = true := by
  have hswap : compare b a = (compare a b).swap := Std.OrientedCmp.eq_swap
  rw [hswap]
  cases compare a b <;> rfl

theorem compare_text_eq_lt {a b : String} : compare a b = .lt ↔ a < b := compareOfLessAndEq_eq_lt

theorem sortBy_pairwise (xs : List α) :
    (sortBy key xs).Pairwise fun a b => (compare (key a) (key b)).isLE = true :=
  List.pairwise_mergeSort (fun _ _ _ => Std.TransCmp.isLE_trans)
    (fun a b => isLE_total (key a) (key b)) xs

/-- Members with the same key keep their order. -/
theorem filter_sortBy (k : κ) (xs : List α) :
    (sortBy key xs).filter (fun x => compare (key x) k == .eq) =
      xs.filter fun x => compare (key x) k == .eq := by
  have heq : ∀ x ∈ xs.filter (fun x => compare (key x) k == .eq), compare (key x) k = .eq :=
    fun x hx => by simpa using (List.mem_filter.mp hx).2
  have hordered : (xs.filter fun x => compare (key x) k == .eq).Pairwise
      fun a b => (compare (key a) (key b)).isLE = true := by
    refine List.pairwise_of_forall_mem_list fun a ha b hb => ?_
    have hsame : compare (key a) (key b) = .eq :=
      Std.TransCmp.eq_trans (heq a ha) (Std.OrientedCmp.eq_comm.mp (heq b hb))
    rw [hsame]
    rfl
  have hsub : (xs.filter fun x => compare (key x) k == .eq).Sublist (sortBy key xs) :=
    List.sublist_mergeSort (fun _ _ _ => Std.TransCmp.isLE_trans)
      (fun a b => isLE_total (key a) (key b)) hordered List.filter_sublist
  have hfiltered := hsub.filter fun x => compare (key x) k == .eq
  rw [List.filter_filter] at hfiltered
  simp only [Bool.and_self] at hfiltered
  exact (hfiltered.eq_of_length ((sortBy_perm key xs).filter _).length_eq.symm).symm

/-- The members of one key are the same ones in the same order after sorting. -/
theorem filter_key_sortBy [DecidableEq κ] [Std.LawfulEqOrd κ] (k : κ) (xs : List α) :
    (sortBy key xs).filter (fun x => key x = k) = xs.filter fun x => key x = k := by
  have hkey : (fun x => decide (key x = k)) = fun x => compare (key x) k == .eq := by
    funext x
    rw [Bool.eq_iff_iff, decide_eq_true_eq, beq_iff_eq, Std.compare_eq_iff_eq]
  rw [hkey]
  exact filter_sortBy key k xs

/-- Members that share a property, and with it the key, are the same ones in the same order after
sorting. -/
theorem filter_sortBy_of_key [DecidableEq κ] [Std.LawfulEqOrd κ] {key : α → κ} {k : κ}
    {p : α → Bool} (h : ∀ x, p x = true → key x = k) (xs : List α) :
    (sortBy key xs).filter p = xs.filter p := by
  have hboth : ∀ ys : List α, ys.filter p = (ys.filter (key · = k)).filter p := by
    intro ys
    rw [List.filter_filter]
    refine List.filter_congr fun x _ => ?_
    cases hp : p x with
    | false => rfl
    | true => simp [h x hp]
  rw [hboth, filter_key_sortBy, ← hboth]

/-- After sorting, members are ordered by their keys, and those with the same key as before. -/
theorem sortBy_pairwise_then {xs : List α} {r : α → α → Prop} (h : xs.Pairwise r) :
    (sortBy key xs).Pairwise fun a b =>
      compare (key a) (key b) = .lt ∨ compare (key a) (key b) = .eq ∧ r a b := by
  rw [List.pairwise_iff_forall_sublist]
  intro a b hab
  have hle := List.pairwise_iff_forall_sublist.mp (sortBy_pairwise key xs) hab
  cases hcompare : compare (key a) (key b) with
  | lt => exact .inl rfl
  | gt => simp [hcompare] at hle
  | eq =>
    -- both have the key of `b`, so the pair stands in the list that was sorted
    have hkept := hab.filter fun x => compare (key x) (key b) == .eq
    rw [filter_sortBy] at hkept
    have hpair : [a, b].filter (fun x => compare (key x) (key b) == .eq) = [a, b] := by
      simp [hcompare]
    rw [hpair] at hkept
    exact .inr ⟨rfl, List.pairwise_iff_forall_sublist.mp h (hkept.trans List.filter_sublist)⟩

end DesignAudit.Text
