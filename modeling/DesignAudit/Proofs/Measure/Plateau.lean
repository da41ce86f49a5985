import DesignAudit.Measure.Round
import Mathlib.Data.List.Basic
import Mathlib.Data.List.Induction

/-!
# The plateau

The plateau after some rounds is found in one pass that keeps the least number so far and how many
rounds have followed it. `Plateau.Fits` says what is kept, in terms of the rounds: what stands
before the least number is greater, what stands behind it is not less. Every round keeps this up
(`Plateau.Fits.step`), and so it holds after all of them (`exists_plateau`). For whole numbers the
plateau is the minimum of the list with the number of rounds after its first occurrence
(`exists_plateau_whole`).
-/

namespace DesignAudit.Measure

/-- The plateau is that of a list of rounds: its number stands in the list for the first time, no
number is less, and as many rounds follow as it tells. -/
def Plateau.Fits (p : Plateau) (numbers : List Held) : Prop :=
  ∃ before after, numbers = before ++ p.best :: after ∧ (∀ x ∈ before, p.best.value < x.value) ∧
    (∀ x ∈ after, p.best.value ≤ x.value) ∧ p.since = after.length

variable {numbers : List Held} {p : Plateau}

/-- One more round. -/
theorem Plateau.Fits.step {p q : Plateau} (h : p.Fits numbers) {n : Held}
    (hstep : Plateau.step (some p) n = some q) : q.Fits (numbers ++ [n]) := by
  obtain ⟨before, after, rfl, hbefore, hafter, hsince⟩ := h
  obtain rfl := Option.some.inj hstep
  split
  · rename_i hless
    -- everything so far is greater than the new least number
    refine ⟨before ++ p.best :: after, [], rfl, ?_, nofun, rfl⟩
    rintro x hx
    rcases List.mem_append.mp hx with hx | hx
    · exact Int.lt_trans hless (hbefore x hx)
    · rcases List.mem_cons.mp hx with rfl | hx
      · exact hless
      · exact Int.lt_of_lt_of_le hless (hafter x hx)
  · rename_i hless
    refine ⟨before, after ++ [n], by simp, hbefore, ?_, ?_⟩
    · exact List.forall_mem_append.mpr
        ⟨hafter, List.forall_mem_singleton.mpr (Int.not_lt.mp hless)⟩
    · rw [hsince, List.length_append]
      rfl

/-- The first round. -/
theorem Plateau.fits_singleton (n : Held) : Plateau.Fits ⟨n, 0⟩ [n] :=
  ⟨[], [], rfl, nofun, nofun, rfl⟩

theorem plateau_append_singleton (numbers : List Held) (n : Held) :
    plateau (numbers ++ [n]) = Plateau.step (plateau numbers) n := by
  rw [plateau, List.foldl_append]
  rfl

/-- After any number of rounds there is a plateau, and it fits. -/
theorem exists_plateau (h : numbers ≠ []) :
    ∃ p, plateau numbers = some p ∧ p.Fits numbers := by
  induction numbers using List.reverseRecOn with
  | nil => exact absurd rfl h
  | append_singleton numbers n ih =>
    by_cases hnumbers : numbers = []
    · subst hnumbers
      exact ⟨⟨n, 0⟩, rfl, Plateau.fits_singleton n⟩
    · obtain ⟨p, hp, hfits⟩ := ih hnumbers
      rw [plateau_append_singleton, hp]
      exact ⟨_, rfl, hfits.step rfl⟩

/-! ## Minimum and first occurrence -/

/-- How many members of a list follow the first occurrence of the least one. -/
def afterLeast (values : List Int) : Nat :=
  match values.min? with
  | none => 0
  | some least => (values.drop (values.idxOf least + 1)).length

theorem Plateau.Fits.min?_eq (h : p.Fits numbers) :
    (numbers.map Held.value).min? = some p.best.value := by
  obtain ⟨before, after, rfl, hbefore, hafter, -⟩ := h
  rw [List.min?_eq_some_iff]
  refine ⟨List.mem_map_of_mem (by simp), List.forall_mem_map.mpr ?_⟩
  refine List.forall_mem_append.mpr ⟨?_, ?_⟩
  · exact fun x hx => Int.le_of_lt (hbefore x hx)
  · exact List.forall_mem_cons.mpr ⟨Int.le_refl _, hafter⟩

theorem Plateau.Fits.since_eq (h : p.Fits numbers) :
    p.since = afterLeast (numbers.map Held.value) := by
  rw [afterLeast, h.min?_eq]
  obtain ⟨before, after, rfl, hbefore, hafter, hsince⟩ := h
  have hfirst : p.best.value ∉ before.map Held.value := by
    intro hmem
    obtain ⟨x, hx, heq⟩ := List.mem_map.mp hmem
    exact Int.ne_of_gt (hbefore x hx) heq
  rw [List.map_append, List.map_cons]
  simp only
  rw [List.idxOf_append_of_notMem hfirst, List.idxOf_cons_self, Nat.add_zero, List.length_drop]
  simp only [List.length_append, List.length_cons, List.length_map]
  omega

/-- **The plateau.** For whole numbers the pass over the rounds ends with the minimum, and with the
number of rounds after its first occurrence. -/
theorem exists_plateau_whole {values : List Int} (h : values ≠ []) :
    ∃ least, values.min? = some least ∧
      plateau (values.map .whole) = some ⟨.whole least, afterLeast values⟩ := by
  obtain ⟨p, hp, hfits⟩ := exists_plateau (mt (List.map_eq_nil_iff (f := Held.whole)).mp h)
  have hvalues : (values.map Held.whole).map Held.value = values := by
    rw [List.map_map]
    exact List.map_id values
  have hleast := hfits.min?_eq
  have hsince := hfits.since_eq
  rw [hvalues] at hleast hsince
  obtain ⟨before, after, hsplit, -⟩ := hfits
  obtain ⟨least, -, hbest⟩ : ∃ n ∈ values, Held.whole n = p.best :=
    List.mem_map.mp (hsplit ▸ (by simp))
  refine ⟨least, ?_, ?_⟩
  · rw [hleast, ← hbest, Held.value]
  · rw [hp, ← hsince, hbest]

end DesignAudit.Measure
