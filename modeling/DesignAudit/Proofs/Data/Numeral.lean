import DesignAudit.Data.Token
import DesignAudit.Proofs.Text.Search

/-!
# Numerals

A numeral has a whole part, maybe a fraction, and maybe an exponent (`IsNumeral`). It is read up to
its end whatever follows, as long as that does not go on like a numeral (`readNumber?_append`).
Whole numbers are read back as they are (`readNumber?_whole`), and finite values are shown by
numerals that are read as real numbers (`readNumber?_shown`).
-/

namespace DesignAudit.Data

open Number Text

structure IsDigits (cs : List Char) : Prop where
  ne_nil : cs ≠ []
  digit : ∀ c ∈ cs, c.isDigit = true

structure IsNumeral (whole fraction exponent : List Char) : Prop where
  digits : IsDigits whole
  /-- A whole part does not begin with a zero, unless it is zero. -/
  zero : whole.head? = some '0' → whole = ['0']
  fraction : fraction = [] ∨ ∃ ds, IsDigits ds ∧ fraction = '.' :: ds
  exponent : exponent = [] ∨
    ∃ sign ds, (sign = '+' ∨ sign = '-') ∧ IsDigits ds ∧ exponent = 'e' :: sign :: ds

def signPart (negative : Bool) : List Char := if negative then ['-'] else []

/-- What follows does not go on like a numeral. -/
def Ends (rest : List Char) : Prop :=
  ∀ c ∈ rest.head?, c.isDigit = false ∧ c ≠ '.' ∧ c ≠ 'e' ∧ c ≠ 'E'

/-! ## Digits -/

theorem isDigits_digitsOf (n : Nat) : IsDigits (digitsOf n) :=
  ⟨Nat.toDigits_ne_nil, fun _ => Nat.isDigit_of_mem_toDigits (by decide) (by decide)⟩

theorem IsDigits.append {cs ds : List Char} (hcs : IsDigits cs) (hds : ∀ d ∈ ds, d.isDigit = true) :
    IsDigits (cs ++ ds) :=
  ⟨List.append_ne_nil_of_left_ne_nil hcs.ne_nil ds, List.forall_mem_append.mpr ⟨hcs.digit, hds⟩⟩

theorem isDigit_of_mem_zeros {n : Nat} {c : Char} (h : c ∈ List.replicate n '0') :
    c.isDigit = true := by
  rw [List.eq_of_mem_replicate h]
  decide

theorem isDigits_zeros_append {ds : List Char} (h : IsDigits ds) (n : Nat) :
    IsDigits (List.replicate n '0' ++ ds) :=
  ⟨List.append_ne_nil_of_right_ne_nil _ h.ne_nil,
    List.forall_mem_append.mpr ⟨fun _ => isDigit_of_mem_zeros, h.digit⟩⟩

/-- The digits of a positive number do not begin with a zero. -/
theorem head?_digitsOf {n : Nat} (hn : 0 < n) : (digitsOf n).head? ≠ some '0' := by
  induction n using Nat.strongRecOn with
  | ind n ih =>
    unfold digitsOf
    by_cases hlt : n < 10
    · rw [Nat.toDigits_of_lt_base hlt]
      revert hlt hn
      have : ∀ m < 10, 0 < m → [m.digitChar].head? ≠ some '0' := by decide
      exact fun hn hlt => this n hlt hn
    · have hle : 10 ≤ n := Nat.not_lt.mp hlt
      rw [Nat.toDigits_of_base_le (by decide) hle,
        List.head?_append_of_ne_nil _ Nat.toDigits_ne_nil]
      exact ih (n / 10) (by omega) (by omega)

theorem digitsValue_digitsOf (n : Nat) : digitsValue (digitsOf n) = n := by
  have h := @Nat.ofDigitChars_toDigits 10 n (by decide) (by decide)
  rw [Nat.ofDigitChars_eq_foldl] at h
  unfold digitsValue digitsOf
  simp only [Nat.mul_comm _ 10]
  exact h

theorem takeWhile_digits_append {ds rest : List Char} (hds : ∀ d ∈ ds, d.isDigit = true)
    (hrest : ∀ c ∈ rest.head?, c.isDigit = false) : (ds ++ rest).takeWhile Char.isDigit = ds := by
  rw [List.takeWhile_append_of_pos hds]
  cases rest with
  | nil => simp
  | cons c rest => simp [hrest c rfl]

/-! ## The parts of a numeral -/

namespace IsNumeral

variable {whole fraction exponent rest : List Char} (h : IsNumeral whole fraction exponent)
  (hrest : Ends rest)

include h hrest

/-- What follows the whole part does not begin with a digit, and if there is no fraction, not with a
point. -/
theorem head?_exponent_append :
    ∀ c ∈ (exponent ++ rest).head?, c.isDigit = false ∧ c ≠ '.' := by
  intro c hc
  rcases h.exponent with rfl | ⟨sign, ds, -, -, rfl⟩
  · obtain ⟨hdigit, hpoint, -⟩ := hrest c hc
    exact ⟨hdigit, hpoint⟩
  · obtain rfl : 'e' = c := Option.some.inj hc
    decide

theorem head?_fraction_append :
    ∀ c ∈ (fraction ++ (exponent ++ rest)).head?, c.isDigit = false := by
  intro c hc
  rcases h.fraction with rfl | ⟨ds, -, rfl⟩
  · exact (h.head?_exponent_append hrest c hc).1
  · obtain rfl : '.' = c := Option.some.inj hc
    decide

theorem wholePart_append :
    wholePart (whole ++ (fraction ++ (exponent ++ rest))) = whole := by
  obtain ⟨d, ds, rfl⟩ := List.exists_cons_of_ne_nil h.digits.ne_nil
  by_cases hzero : d = '0'
  · subst hzero
    obtain rfl : ds = [] := (List.cons.inj (h.zero rfl)).2
    rfl
  · have hwhole : ∀ cs, wholePart (d :: cs) = leadingDigits (d :: cs) := by
      intro cs
      rw [wholePart]
      rintro _ hcons
      exact hzero (List.cons.inj hcons).1
    exact (hwhole _).trans (takeWhile_digits_append h.digits.digit (h.head?_fraction_append hrest))

theorem fractionPart_append :
    fractionPart (fraction ++ (exponent ++ rest)) = fraction := by
  have hnext := h.head?_exponent_append hrest
  rcases h.fraction with rfl | ⟨ds, hds, rfl⟩
  · rw [List.nil_append]
    cases hcs : exponent ++ rest with
    | nil => rfl
    | cons c cs =>
      rw [hcs] at hnext
      rw [fractionPart]
      rintro _ hcons
      exact (hnext c rfl).2 (List.cons.inj hcons).1
  · have hdigits : leadingDigits (ds ++ (exponent ++ rest)) = ds :=
      takeWhile_digits_append hds.digit fun c hc => (hnext c hc).1
    rw [List.cons_append, fractionPart, hdigits, if_neg (by simpa using hds.ne_nil)]

theorem exponentPart_append :
    exponentPart (exponent ++ rest) = exponent := by
  rcases h.exponent with rfl | ⟨sign, ds, hsign, hds, rfl⟩
  · rw [List.nil_append]
    cases rest with
    | nil => rfl
    | cons c rest =>
      obtain ⟨-, -, he, hE⟩ := hrest c rfl
      simp [exponentPart, he, hE]
  · obtain ⟨d, ds, rfl⟩ := List.exists_cons_of_ne_nil hds.ne_nil
    have hd := hds.digit d List.mem_cons_self
    have hplus : (d == '+' || d == '-') = false := by
      rw [Bool.or_eq_false_iff, beq_eq_false_iff_ne, beq_eq_false_iff_ne]
      constructor <;> rintro rfl <;> exact absurd hd (by decide)
    have hsigns : (sign == '+' || sign == '-') = true := by
      rcases hsign with rfl | rfl <;> rfl
    have htake : ((sign :: d :: ds ++ rest).takeWhile fun c => c == '+' || c == '-').take 1 =
        [sign] := by
      simp [hsigns]
    have hdigits : leadingDigits (d :: ds ++ rest) = d :: ds :=
      takeWhile_digits_append hds.digit fun c hc => (hrest c hc).1
    rw [List.cons_append, exponentPart, htake]
    simp only [List.length_singleton, List.cons_append, List.drop_succ_cons, List.drop_zero]
    rw [← List.cons_append, hdigits]
    rfl

theorem readNumber?_append (negative : Bool) :
    readNumber? (signPart negative ++ (whole ++ (fraction ++ (exponent ++ rest)))) =
      some (numeralValue negative whole fraction exponent,
        (signPart negative ++ (whole ++ (fraction ++ exponent))).length) := by
  have hwhole := h.wholePart_append hrest
  have hsign : ((signPart negative ++ (whole ++ (fraction ++ (exponent ++ rest)))).head? ==
      some '-') = negative := by
    cases negative with
    | true => rfl
    | false =>
      obtain ⟨d, ds, rfl⟩ := List.exists_cons_of_ne_nil h.digits.ne_nil
      have hne : d ≠ '-' := by
        rintro rfl
        exact absurd (h.digits.digit _ List.mem_cons_self) (by decide)
      simpa [signPart] using hne
  have hbody : (if negative = true then
      (signPart negative ++ (whole ++ (fraction ++ (exponent ++ rest)))).drop 1
      else signPart negative ++ (whole ++ (fraction ++ (exponent ++ rest)))) =
        whole ++ (fraction ++ (exponent ++ rest)) := by
    cases negative <;> rfl
  have hlength : whole.length + fraction.length + exponent.length +
      (if negative = true then 1 else 0) =
        (signPart negative ++ (whole ++ (fraction ++ exponent))).length := by
    cases negative <;> simp [signPart] <;> omega
  have hdrop : (whole ++ (fraction ++ (exponent ++ rest))).drop (whole.length + fraction.length) =
      exponent ++ rest := by
    rw [← List.append_assoc, ← List.length_append, List.drop_left]
  have hempty : whole.isEmpty = false := by simpa using h.digits.ne_nil
  rw [readNumber?]
  simp only [hsign, hbody, hwhole, List.drop_left, h.fractionPart_append hrest, hdrop,
    h.exponentPart_append hrest, hempty, hlength, Bool.false_eq_true, if_false]

end IsNumeral

/-! ## Printable characters -/

def IsPrintable (c : Char) : Prop := 0x20 ≤ c.toNat ∧ c.toNat < 0x7F

instance (c : Char) : Decidable (IsPrintable c) := inferInstanceAs (Decidable (_ ∧ _))

/-- What holds of the ten digits holds of every digit. -/
theorem forall_of_isDigit {p : Char → Prop} (h : ∀ n < 58, 48 ≤ n → p (Char.ofNat n)) {c : Char}
    (hc : c.isDigit = true) : p c := by
  rw [Char.isDigit, Bool.and_eq_true, decide_eq_true_eq, decide_eq_true_eq] at hc
  have hp := h c.toNat (Nat.lt_succ_of_le (UInt32.le_iff_toNat_le.mp hc.2))
    (UInt32.le_iff_toNat_le.mp hc.1)
  rwa [Char.ofNat_toNat] at hp

theorem IsDigits.isPrintable {ds : List Char} (h : IsDigits ds) : ∀ c ∈ ds, IsPrintable c :=
  fun c hc => forall_of_isDigit (by decide) (h.digit c hc)

theorem isPrintable_signPart (negative : Bool) : ∀ c ∈ signPart negative, IsPrintable c := by
  cases negative <;> decide

theorem IsNumeral.isPrintable {whole fraction exponent : List Char}
    (h : IsNumeral whole fraction exponent) :
    ∀ c ∈ whole ++ (fraction ++ exponent), IsPrintable c := by
  simp only [List.forall_mem_append]
  refine ⟨h.digits.isPrintable, ?_, ?_⟩
  · rcases h.fraction with rfl | ⟨ds, hds, rfl⟩
    · exact List.forall_mem_nil _
    · exact List.forall_mem_cons.mpr ⟨by decide, hds.isPrintable⟩
  · rcases h.exponent with rfl | ⟨sign, ds, hsign, hds, rfl⟩
    · exact List.forall_mem_nil _
    · refine List.forall_mem_cons.mpr ⟨by decide, List.forall_mem_cons.mpr ⟨?_, hds.isPrintable⟩⟩
      rcases hsign with rfl | rfl <;> decide

/-! ## Numbers that are shown -/

/-- A numeral with a fraction or an exponent. -/
def IsRealNumeral (cs : List Char) : Prop :=
  ∃ whole fraction exponent, IsNumeral whole fraction exponent ∧
    (fraction.isEmpty && exponent.isEmpty) = false ∧ cs = whole ++ (fraction ++ exponent)

theorem isRealNumeral_point {whole ds : List Char} (hwhole : IsDigits whole)
    (hzero : whole.head? = some '0' → whole = ['0']) (hds : IsDigits ds) :
    IsRealNumeral (whole ++ '.' :: ds) := by
  refine ⟨whole, '.' :: ds, [], ⟨hwhole, hzero, .inr ⟨ds, hds, rfl⟩, .inl rfl⟩, rfl, ?_⟩
  rw [List.append_nil]

/-- An exponent is a sign and digits. -/
theorem isRealNumeral_exponent {whole fraction : List Char} (h : IsNumeral whole fraction [])
    (x : Int) : IsRealNumeral (whole ++ (fraction ++ 'e' :: Binary.exponentText x)) := by
  refine ⟨whole, fraction, 'e' :: Binary.exponentText x, ⟨h.digits, h.zero, h.fraction, .inr ?_⟩,
    by simp, rfl⟩
  refine ⟨_, _, ?_, isDigits_zeros_append (isDigits_digitsOf x.natAbs) _, rfl⟩
  split
  · exact .inr rfl
  · exact .inl rfl

/-- Digits that do not begin with a zero are shown by a numeral. -/
theorem isRealNumeral_shownDigits {ds : List Char} (hds : IsDigits ds) (hzero : ds.head? ≠ some '0')
    (scale : Int) : IsRealNumeral (Binary.shownDigits ds scale) := by
  have hone : IsDigits ['0'] := ⟨nofun, by decide⟩
  have hlength := List.length_pos_of_ne_nil hds.ne_nil
  unfold Binary.shownDigits
  dsimp only
  split
  · split
    · -- all digits stand behind the point
      exact isRealNumeral_point hone (fun _ => rfl) (isDigits_zeros_append hds _)
    · split
      · -- all digits stand before the point
        refine isRealNumeral_point (hds.append fun _ => isDigit_of_mem_zeros) (fun h => ?_) hone
        rw [List.head?_append_of_ne_nil _ hds.ne_nil] at h
        exact absurd h hzero
      · -- the point stands between two digits
        refine isRealNumeral_point ⟨?_, fun c hc => hds.digit c (List.mem_of_mem_take hc)⟩
          (fun h => ?_) ⟨?_, fun c hc => hds.digit c (List.mem_of_mem_drop hc)⟩
        · rw [ne_eq, List.take_eq_nil_iff]
          rintro (hnone | hnil)
          · omega
          · exact hds.ne_nil hnil
        · rw [List.head?_take, if_neg (by omega)] at h
          exact absurd h hzero
        · rw [ne_eq, List.drop_eq_nil_iff]
          omega
  · -- with an exponent, one digit stands before the point
    obtain ⟨d, rest, rfl⟩ := List.exists_cons_of_ne_nil hds.ne_nil
    have hd : IsDigits [d] :=
      ⟨nofun, List.forall_mem_singleton.mpr (hds.digit d List.mem_cons_self)⟩
    have hfirst : [d].head? = some '0' → [d] = ['0'] := fun h => absurd h hzero
    cases rest with
    | nil => exact isRealNumeral_exponent ⟨hd, hfirst, .inl rfl, .inl rfl⟩ _
    | cons c rest =>
      have hrest : IsDigits (c :: rest) :=
        ⟨List.cons_ne_nil c rest, fun x hx => hds.digit x (List.mem_cons_of_mem d hx)⟩
      exact isRealNumeral_exponent ⟨hd, hfirst, .inr ⟨_, hrest, rfl⟩, .inl rfl⟩ _

/-- Finite values are shown by numerals with a sign. -/
theorem exists_numeral_shown (negative : Bool) (m : Nat) (e : Int) :
    ∃ cs, IsRealNumeral cs ∧
      (Binary.finite negative m e).shown.toList = signPart negative ++ cs := by
  have hsigned : ∀ cs, (Binary.signedText negative cs).toList = signPart negative ++ cs := by
    intro cs
    rw [Binary.signedText, String.toList_ofList]
    cases negative <;> rfl
  have hshown : (Binary.finite negative m e).shown = Binary.signedText negative
      (if (Binary.shortest m e).1 = 0 then ['0', '.', '0']
        else Binary.shownDigits (digitsOf (Binary.shortest m e).1) (Binary.shortest m e).2) := rfl
  rw [hshown, hsigned]
  refine ⟨_, ?_, rfl⟩
  split
  · have hone : IsDigits ['0'] := ⟨nofun, by decide⟩
    exact isRealNumeral_point hone (fun _ => rfl) hone
  · rename_i hk
    exact isRealNumeral_shownDigits (isDigits_digitsOf _) (head?_digitsOf (Nat.pos_of_ne_zero hk)) _

/-- What a value is read back as: the number that its numeral denotes. -/
def reread : Binary → Binary
  | .finite negative m e =>
    match readNumber? (Binary.finite negative m e).shown.toList with
    | some (.real b, _) => b
    | _ => .undefined
  | b => b

/-- A finite value that is shown is read up to its end, as a real number. -/
theorem readNumber?_shown (negative : Bool) (m : Nat) (e : Int) {rest : List Char}
    (hrest : Ends rest) :
    readNumber? ((Binary.finite negative m e).shown.toList ++ rest) =
      some (.real (reread (.finite negative m e)),
        (Binary.finite negative m e).shown.toList.length) := by
  obtain ⟨_, ⟨whole, fraction, exponent, h, hreal, rfl⟩, hshown⟩ :=
    exists_numeral_shown negative m e
  obtain ⟨b, hb⟩ : ∃ b, numeralValue negative whole fraction exponent = .real b :=
    ⟨_, by rw [numeralValue, if_neg (by rw [hreal]; decide)]⟩
  have hread := h.readNumber?_append hrest negative
  have halone := h.readNumber?_append (show Ends [] from nofun) negative
  rw [List.append_nil, ← hshown, hb] at halone
  rw [reread, halone, ← hb, hshown, ← hread]
  simp only [List.append_assoc]

/-- How a whole number is written. -/
theorem toList_toString_int (n : Int) :
    (toString n).toList = signPart (n < 0) ++ digitsOf n.natAbs := by
  cases n with
  | ofNat n => exact String.toList_ofList
  | negSucc n =>
    have hrepr : (toString (Int.negSucc n)).toList = '-' :: (Nat.repr (n + 1)).toList :=
      String.toList_append
    rw [hrepr, decide_eq_true (Int.negSucc_lt_zero n)]
    exact congrArg ('-' :: ·) String.toList_ofList

/-- A whole number that is written is read back. -/
theorem readNumber?_whole (n : Int) {rest : List Char} (hrest : Ends rest) :
    readNumber? ((toString n).toList ++ rest) = some (.whole n, (toString n).toList.length) := by
  have hnumeral : IsNumeral (digitsOf n.natAbs) [] [] := by
    refine ⟨isDigits_digitsOf _, fun h => ?_, .inl rfl, .inl rfl⟩
    cases hn : n.natAbs with
    | zero => rfl
    | succ k =>
      rw [hn] at h
      exact absurd h (head?_digitsOf k.succ_pos)
  have hread := hnumeral.readNumber?_append hrest (n < 0)
  have hsigned : Binary.signed (n < 0) n.natAbs = n := by
    rw [Binary.signed]
    split
    · rename_i h
      have := of_decide_eq_true h
      omega
    · rename_i h
      have := mt decide_eq_true h
      omega
  simp only [List.nil_append, List.append_nil, numeralValue, List.isEmpty_nil, Bool.and_self,
    if_true, digitsValue_digitsOf, hsigned] at hread
  rw [toList_toString_int, List.append_assoc]
  exact hread

end DesignAudit.Data
