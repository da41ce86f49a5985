import DesignAudit.Data.Token
import DesignAudit.Data.Writing
import DesignAudit.Proofs.Encoding.RoundTrip

/-!
# Texts that are written and read back

Within a data text each character is written as itself, by a letter behind a backslash, or as the
units of UTF-16. `readText_written` says that a text is read back from what is written for it, up to
the closing quote: each character gives its units (`readText_writtenChar`), and these make up the
text again (`joinSurrogates_flatMap_units`).
-/

namespace DesignAudit.Data

open Encoding

/-! ## Units -/

/-- The units of a character are joined to this character, whatever follows. -/
theorem joinSurrogates_units (c : Char) (us : List Nat) :
    joinSurrogates (units c ++ us) = c :: joinSurrogates us := by
  have hvalid := code_cases c
  by_cases hbasic : c.toNat < 0x10000
  · rw [units]
    simp only [hbasic, if_true, List.singleton_append]
    cases us with
    | nil =>
      have hchar : Nat.isValidChar c.toNat := c.valid
      simp [joinSurrogates, hchar]
    | cons v us =>
      rw [joinSurrogates, if_neg (by omega), if_neg (by omega), Char.ofNat_toNat]
  · have hcode : 0x10000 + (0xD800 + (c.toNat - 0x10000) / 0x400 - 0xD800) * 0x400 +
        (0xDC00 + (c.toNat - 0x10000) % 0x400 - 0xDC00) = c.toNat := by omega
    rw [units]
    simp only [hbasic, if_false, List.cons_append, List.nil_append]
    rw [joinSurrogates, if_pos (by omega), hcode, Char.ofNat_toNat]

theorem joinSurrogates_flatMap_units (cs : List Char) : joinSurrogates (cs.flatMap units) = cs := by
  induction cs with
  | nil => rfl
  | cons c cs ih => rw [List.flatMap_cons, joinSurrogates_units, ih]

/-! ## Escapes -/

theorem hexNumber?_concat (ds : List Char) (d : Char) :
    hexNumber? (ds ++ [d]) = (do return (← hexNumber? ds) * 16 + (← hexValue? d)) := by
  rw [hexNumber?, List.foldl_append]
  rfl

theorem hexValue?_digitChar : ∀ d < 16, hexValue? (Nat.digitChar d) = some d := by decide

theorem hexNumber?_toDigits (n : Nat) : hexNumber? (Nat.toDigits 16 n) = some n := by
  induction n using Nat.strongRecOn with
  | ind n ih =>
    by_cases hlt : n < 16
    · rw [Nat.toDigits_of_lt_base hlt]
      revert hlt
      have : ∀ m < 16, hexNumber? [m.digitChar] = some m := by decide
      exact this n
    · have hle : 16 ≤ n := Nat.not_lt.mp hlt
      rw [Nat.toDigits_of_base_le (by decide) hle, hexNumber?_concat, ih (n / 16) (by omega),
        hexValue?_digitChar _ (Nat.mod_lt n (by decide))]
      exact congrArg some (Nat.div_add_mod' n 16)

theorem hexNumber?_zeros_append (k : Nat) (ds : List Char) :
    hexNumber? (List.replicate k '0' ++ ds) = hexNumber? ds := by
  induction k with
  | zero => rfl
  | succ k ih => exact ih

/-- A unit is written with four digits that denote it. -/
theorem exists_unitEscape {u : Nat} (h : u < 0x10000) :
    ∃ a b c d, unitEscape u = ['\\', 'u', a, b, c, d] ∧ hexNumber? [a, b, c, d] = some u := by
  have hlength : (Nat.toDigits 16 u).length ≤ 4 :=
    (Nat.length_toDigits_le_iff (by decide) (by decide)).mpr h
  have hfour : (List.replicate (4 - (Nat.toDigits 16 u).length) '0' ++
      Nat.toDigits 16 u).length = 4 := by
    rw [List.length_append, List.length_replicate]
    omega
  have hnumber := (hexNumber?_zeros_append (4 - (Nat.toDigits 16 u).length) _).trans
    (hexNumber?_toDigits u)
  obtain ⟨a, b, c, d, hds⟩ := List.length_eq_four.mp hfour
  refine ⟨a, b, c, d, ?_, hds ▸ hnumber⟩
  rw [unitEscape, List.cons_append, List.cons_append, hds]

/-! ## Reading a text -/

variable (start i : Nat) (done : List Nat)

theorem readText_unitEscape {u : Nat} (h : u < 0x10000) {rest : List Char} (hrest : rest ≠ []) :
    readText start i done (unitEscape u ++ rest) = readText start (i + 6) (u :: done) rest := by
  obtain ⟨a, b, c, d, hescape, hnumber⟩ := exists_unitEscape h
  obtain ⟨r, rs, rfl⟩ := List.exists_cons_of_ne_nil hrest
  rw [hescape]
  show readText start i done ('\\' :: 'u' :: a :: b :: c :: d :: r :: rs) = _
  rw [readText]
  exact hnumber

/-- A letter behind a backslash. -/
theorem readText_letter {letter : Char} {u : Nat} (h : escaped? letter = some u)
    (rest : List Char) :
    readText start i done ('\\' :: letter :: rest) = readText start (i + 2) (u :: done) rest := by
  have hletter : letter ≠ 'u' := by
    rintro rfl
    cases h
  rw [readText, h]
  · rintro a b c d tail rfl -
    exact hletter rfl
  · rintro rfl
    exact hletter rfl

/-- A character that stands for itself. -/
theorem readText_plain {c : Char} (hquote : c ≠ '"') (hslash : c ≠ '\\') (hcontrol : 0x20 ≤ c.toNat)
    (rest : List Char) :
    readText start i done (c :: rest) = readText start (i + 1) (c.toNat :: done) rest := by
  rw [readText, if_neg (by omega)]
  all_goals grind

/-- The units of a character that are written as escapes. -/
theorem readText_escapes (us : List Nat) (hus : ∀ u ∈ us, u < 0x10000) {rest : List Char}
    (hrest : rest ≠ []) :
    readText start i done (us.flatMap unitEscape ++ rest) =
      readText start (i + (us.flatMap unitEscape).length) (us.reverse ++ done) rest := by
  induction us generalizing i done with
  | nil => rfl
  | cons u us ih =>
    obtain ⟨hu, hus⟩ := List.forall_mem_cons.mp hus
    obtain ⟨a, b, c, d, hescape, -⟩ := exists_unitEscape hu
    rw [List.flatMap_cons, List.append_assoc,
      readText_unitEscape start i done hu (List.append_ne_nil_of_right_ne_nil _ hrest), ih _ _ hus,
      List.length_append, List.reverse_cons, List.append_assoc, List.singleton_append,
      hescape, ← Nat.add_assoc]
    rfl

theorem units_lt (c : Char) : ∀ u ∈ units c, u < 0x10000 := by
  have hvalid := code_cases c
  rw [units]
  split <;> simp only [List.mem_cons, List.not_mem_nil, or_false] <;> omega

/-- A character that is written gives its units. -/
theorem readText_writtenChar (c : Char) {rest : List Char} (hrest : rest ≠ []) :
    readText start i done (writtenChar c ++ rest) =
      readText start (i + (writtenChar c).length) ((units c).reverse ++ done) rest := by
  have hbasic : ∀ {n}, c.toNat = n → n < 0x10000 → (units c).reverse = [n] := by
    rintro n rfl hlt
    rw [units]
    simp only [hlt, if_true]
    rfl
  rw [writtenChar]
  split
  case h_8 _ hquote hslash _ _ _ _ _ =>
    split
    · rename_i hplain
      rw [hbasic rfl (by omega)]
      exact readText_plain start i done (fun h => hquote (by rw [h]; rfl))
        (fun h => hslash (by rw [h]; rfl)) hplain.1 rest
    · exact readText_escapes start i done _ (units_lt c) hrest
  all_goals
    rename_i hn
    rw [hbasic hn (by decide)]
    exact readText_letter start i done rfl rest

/-- **A text is read back.** What is written for a text is read as this text, up to the closing
quote. -/
theorem readText_written (cs rest : List Char) :
    readText start i done (cs.flatMap writtenChar ++ '"' :: rest) =
      .ok (String.ofList (joinSurrogates (done.reverse ++ cs.flatMap units)),
        i + (cs.flatMap writtenChar).length + 1 - start) := by
  induction cs generalizing i done with
  | nil =>
    rw [List.flatMap_nil, List.nil_append, readText, List.flatMap_nil, List.append_nil]
    rfl
  | cons c cs ih =>
    have hrest : cs.flatMap writtenChar ++ '"' :: rest ≠ [] :=
      List.append_ne_nil_of_right_ne_nil _ (List.cons_ne_nil _ _)
    rw [List.flatMap_cons, List.append_assoc, readText_writtenChar start i done c hrest, ih,
      List.flatMap_cons, List.reverse_append, List.reverse_reverse, List.append_assoc,
      List.length_append]
    congr 3
    omega

end DesignAudit.Data
