import DesignAudit.Number.Arithmetic
import Mathlib.Algebra.Order.Field.Rat
import Mathlib.Algebra.Order.Field.Power
import Mathlib.Order.WithBot
import Mathlib.Tactic.Ring

/-!
# The size of a binary value

`Binary.size` is where a value lies on the line of rational numbers with both infinities. The
comparisons of binary values are those of their sizes (`eq_iff_size`, `lt_iff_size`), for all values
that are numbers. So the comparisons are orders, although a value has several forms.
-/

namespace DesignAudit.Number.Binary

def ratio (negative : Bool) (m : Nat) (e : Int) : ℚ := (signed negative m : ℚ) * 2 ^ e

/-- Where a value lies; what is no number is counted as infinite. -/
def size : Binary → WithBot (WithTop ℚ)
  | .finite s m e => ((ratio s m e : WithTop ℚ) : WithBot (WithTop ℚ))
  | .infinite negative => if negative then ⊥ else ⊤
  | .undefined => ⊤

/-- Whether a value is a finite number. -/
def IsFinite : Binary → Prop
  | .finite .. => True
  | _ => False

instance : DecidablePred IsFinite
  | .finite .. => .isTrue trivial
  | .infinite _ => .isFalse id
  | .undefined => .isFalse id

theorem IsFinite.ne_undefined {b : Binary} (h : b.IsFinite) : b ≠ .undefined := by
  rintro rfl
  exact h

/-- A value with its exponent brought down to `least` is the same multiple of its ratio as any other. -/
theorem aligned_eq_ratio {least e : Int} (h : least ≤ e) (s : Bool) (m : Nat) :
    (aligned least s m e : ℚ) = ratio s m e * 2 ^ (-least) := by
  have hexp : ((2 : ℚ) ^ (e - least).toNat) = 2 ^ e * 2 ^ (-least) := by
    rw [← zpow_natCast, Int.toNat_of_nonneg (by omega), ← zpow_add₀ (by norm_num), Int.sub_eq_add_neg]
  have hsigned : (aligned least s m e : ℚ) = (signed s m : ℚ) * 2 ^ (e - least).toNat := by
    cases s
    · simp [aligned, signed]
    · simp [aligned, signed]
  rw [hsigned, hexp, ratio]
  ring

theorem aligned_lt_iff {least e f : Int} (he : least ≤ e) (hf : least ≤ f) (s t : Bool)
    (m n : Nat) :
    aligned least s m e < aligned least t n f ↔ ratio s m e < ratio t n f := by
  have hpos : (0 : ℚ) < 2 ^ (-least) := zpow_pos (by norm_num) _
  rw [← mul_lt_mul_iff_of_pos_right hpos, ← aligned_eq_ratio he, ← aligned_eq_ratio hf, Int.cast_lt]

theorem aligned_eq_iff {least e f : Int} (he : least ≤ e) (hf : least ≤ f) (s t : Bool)
    (m n : Nat) :
    aligned least s m e = aligned least t n f ↔ ratio s m e = ratio t n f := by
  have hne : (2 : ℚ) ^ (-least) ≠ 0 := zpow_ne_zero _ (by norm_num)
  rw [← mul_left_inj' hne, ← aligned_eq_ratio he, ← aligned_eq_ratio hf, Int.cast_inj]

/-- Values are equal exactly if they lie at the same place. -/
theorem eq_iff_size {a b : Binary} (ha : a ≠ .undefined) (hb : b ≠ .undefined) :
    a.eq b = true ↔ a.size = b.size := by
  cases a with
  | undefined => exact absurd rfl ha
  | infinite s =>
    cases b with
    | undefined => exact absurd rfl hb
    | infinite t => cases s <;> cases t <;> simp [eq, size]
    | finite t n f => cases s <;> simp [eq, size]
  | finite s m e =>
    cases b with
    | undefined => exact absurd rfl hb
    | infinite t => cases t <;> simp [eq, size]
    | finite t n f =>
      rw [eq, beq_iff_eq, aligned_eq_iff (Int.min_le_left e f) (Int.min_le_right e f)]
      simp [size]

/-- A value is less than another one exactly if it lies before it. -/
theorem lt_iff_size {a b : Binary} (ha : a ≠ .undefined) (hb : b ≠ .undefined) :
    a.lt b = true ↔ a.size < b.size := by
  cases a with
  | undefined => exact absurd rfl ha
  | infinite s =>
    cases b with
    | undefined => exact absurd rfl hb
    | infinite t => cases s <;> cases t <;> simp [lt, size]
    | finite t n f => cases s <;> simp [lt, size]
  | finite s m e =>
    cases b with
    | undefined => exact absurd rfl hb
    | infinite t =>
      cases t with
      | false => exact iff_of_true rfl (WithBot.coe_lt_coe.mpr (WithTop.coe_lt_top _))
      | true => simp [lt, size]
    | finite t n f =>
      rw [lt, decide_eq_true_eq, aligned_lt_iff (Int.min_le_left e f) (Int.min_le_right e f)]
      simp [size]

theorem nearest_ne_undefined (negative : Bool) (num den : Nat) :
    nearest negative num den ≠ .undefined := by
  -- whatever mantissa and exponent are chosen, the answer is finite or infinite
  have hchosen : ∀ p : Nat × Int,
      (if 971 < p.2 then infinite negative else finite negative p.1 p.2) ≠ undefined := by
    intro p
    split
    · exact Binary.noConfusion
    · exact Binary.noConfusion
  unfold nearest
  split
  · exact Binary.noConfusion
  · exact hchosen _

/-- What is added to a finite value gives a number again. -/
theorem IsFinite.add_ne_undefined {a b : Binary} (ha : a.IsFinite) (hb : b ≠ .undefined) :
    a.add b ≠ .undefined := by
  cases a with
  | undefined => exact absurd ha id
  | infinite _ => exact absurd ha id
  | finite s m e =>
    cases b with
    | undefined => exact absurd rfl hb
    | infinite _ => exact Binary.noConfusion
    | finite t n f =>
      rw [add]
      split
      · exact Binary.noConfusion
      · exact nearest_ne_undefined _ _ _

end DesignAudit.Number.Binary
