import DesignAudit.Encoding.File
import Mathlib.Data.List.Basic

/-!
# What is read back from an encoded text

Both encodings are read byte by byte, with a state for what has begun. Read from a state in which
nothing has begun, the bytes of one character add that character and leave nothing begun
(`foldl_utf8Bytes`, `foldl_units`), so that the bytes of a text are read as the text (`ofUtf8_toUtf8`,
`ofUtf16_toUtf16`). No UTF-8 text begins like a mark of UTF-16 (`markedOrder?_toUtf8`). Together this
gives the characters of a file from the text that was written into it, whatever its encoding
(`characters_encode`); the mark of UTF-8 alone is taken for a character of the text.
-/

namespace DesignAudit.Encoding

/-- The byte-order mark as a character. -/
def markChar : Char := Char.ofNat 0xFEFF

variable {g : Begun} {k n u : Nat}

theorem toNat_byte (h : n < 0x100) : (byte n).toNat = n :=
  UInt8.toNat_ofNat_of_lt' h

/-- The code of a character is that of no surrogate. -/
theorem code_cases (c : Char) : c.toNat < 0xD800 ∨ 0xDFFF < c.toNat ∧ c.toNat < 0x110000 := c.valid

/-! ## UTF-8 -/

theorem utf8From_eq (done : List UInt8) (text : List Char) :
    utf8From done text = done.reverse ++ text.flatMap utf8Bytes := by
  induction text generalizing done with
  | nil => simp [utf8From]
  | cons c rest ih => simp [utf8From, ih]

theorem toUtf8_eq (text : List Char) : toUtf8 text = text.flatMap utf8Bytes := by
  rw [toUtf8, utf8From_eq, List.reverse_nil, List.nil_append]

/-- The first byte of a sequence, read when nothing has begun. -/
theorem step_first (h : n < 0x100) (done : List Char) :
    Utf8State.step { done } (byte n) = .first done n := by
  show Utf8State.first done (byte n).toNat = _
  rw [toNat_byte h]

/-- A further byte of a sequence, as long as more are to come. -/
theorem step_more (hleft : 1 < g.left) (hlow : g.low ≤ 0x80 + k)
    (hhigh : 0x80 + k ≤ g.high) (hk : k < 0x40) (done : List Char) :
    Utf8State.step { done, begun := some g } (byte (0x80 + k)) =
      { done, begun := some { left := g.left - 1, value := g.value * 0x40 + k } } := by
  have hmod : (0x80 + k) % 0x40 = k := by omega
  have hrange : (decide (g.low ≤ 0x80 + k) && decide (0x80 + k ≤ g.high)) = true := by
    simp [hlow, hhigh]
  simp only [Utf8State.step, toNat_byte (show 0x80 + k < 0x100 by omega), hrange, hmod, if_true,
    if_neg (show ¬ g.left ≤ 1 by omega)]

/-- The last byte of a sequence. -/
theorem step_last (hleft : g.left = 1) (hlow : g.low ≤ 0x80 + k)
    (hhigh : 0x80 + k ≤ g.high) (hk : k < 0x40) (done : List Char) :
    Utf8State.step { done, begun := some g } (byte (0x80 + k)) =
      { done := Char.ofNat (g.value * 0x40 + k) :: done } := by
  have hmod : (0x80 + k) % 0x40 = k := by omega
  have hrange : (decide (g.low ≤ 0x80 + k) && decide (0x80 + k ≤ g.high)) = true := by
    simp [hlow, hhigh]
  simp only [Utf8State.step, toNat_byte (show 0x80 + k < 0x100 by omega), hrange, hmod, if_true,
    if_pos (show g.left ≤ 1 by omega)]

theorem lead_two (hlow : 2 ≤ k) (hhigh : k < 0x20) :
    lead (0xC0 + k) = .begins { left := 1, value := k } := by
  rw [lead, if_neg (by omega), if_neg (by omega), if_pos (by omega), Nat.add_sub_cancel_left]

theorem lead_three (hhigh : k < 0x10) :
    lead (0xE0 + k) = .begins { left := 2, value := k, low := if k = 0 then 0xA0 else 0x80,
                                high := if k = 0xD then 0x9F else 0xBF } := by
  have hlow : (0xE0 + k = 0xE0) = (k = 0) := by simp
  have hlast : (0xE0 + k = 0xED) = (k = 0xD) := propext ⟨by omega, by omega⟩
  rw [lead, if_neg (by omega), if_neg (by omega), if_neg (by omega), if_pos (by omega),
    Nat.add_sub_cancel_left]
  simp only [hlow, hlast]

theorem lead_four (hhigh : k < 5) :
    lead (0xF0 + k) = .begins { left := 3, value := k, low := if k = 0 then 0x90 else 0x80,
                                high := if k = 4 then 0x8F else 0xBF } := by
  have hlow : (0xF0 + k = 0xF0) = (k = 0) := by simp
  have hlast : (0xF0 + k = 0xF4) = (k = 4) := propext ⟨by omega, by omega⟩
  rw [lead, if_neg (by omega), if_neg (by omega), if_neg (by omega), if_neg (by omega),
    if_pos (by omega), Nat.add_sub_cancel_left]
  simp only [hlow, hlast]

/-- A first byte after which more are to come. -/
theorem first_of_lead (h : lead n = .begins g) (done : List Char) :
    Utf8State.first done n = { done, begun := some g } := by
  rw [Utf8State.first, h]

/-- The bytes of a character, read when nothing has begun, add the character. -/
theorem foldl_utf8Bytes (c : Char) (done : List Char) :
    (utf8Bytes c).foldl Utf8State.step { done } = { done := c :: done } := by
  have hcode := code_cases c
  have hchar : ∀ n, n = c.toNat → Char.ofNat n = c := by
    rintro n rfl
    exact Char.ofNat_toNat c
  unfold utf8Bytes
  generalize c.toNat = n at hcode hchar ⊢
  dsimp only
  -- one case for each number of bytes; the ranges in `lead` hold because the code is no surrogate
  split
  · rename_i hone
    have hlead : lead n = .whole (Char.ofNat n) := if_pos hone
    rw [List.foldl_cons, List.foldl_nil, step_first (by omega), Utf8State.first, hlead, hchar n rfl]
  split
  · rw [List.foldl_cons, List.foldl_cons, List.foldl_nil, step_first (by omega),
      first_of_lead (lead_two (by omega) (by omega)),
      step_last rfl (Nat.le_add_right _ _) (by dsimp only; omega) (by omega),
      hchar _ (by dsimp only; omega)]
  split
  · rw [List.foldl_cons, List.foldl_cons, List.foldl_cons, List.foldl_nil, step_first (by omega),
      first_of_lead (lead_three (by omega)),
      step_more (by dsimp only; omega) (by dsimp only; split <;> omega)
        (by dsimp only; split <;> omega) (by omega),
      step_last rfl (Nat.le_add_right _ _) (by dsimp only; omega) (by omega),
      hchar _ (by dsimp only; omega)]
  · rw [List.foldl_cons, List.foldl_cons, List.foldl_cons, List.foldl_cons, List.foldl_nil,
      step_first (by omega), first_of_lead (lead_four (by omega)),
      step_more (by dsimp only; omega) (by dsimp only; split <;> omega)
        (by dsimp only; split <;> omega) (by omega),
      step_more (by dsimp only; omega) (Nat.le_add_right _ _) (by dsimp only; omega) (by omega),
      step_last rfl (Nat.le_add_right _ _) (by dsimp only; omega) (by omega),
      hchar _ (by dsimp only; omega)]

/-- A text is read back from its bytes. -/
theorem ofUtf8_toUtf8 (text : List Char) : ofUtf8 (toUtf8 text) = text := by
  have hread : ∀ done : List Char, (text.flatMap utf8Bytes).foldl Utf8State.step { done } =
      { done := text.reverse ++ done } := by
    induction text with
    | nil => intro done; rfl
    | cons c rest ih =>
      intro done
      rw [List.flatMap_cons, List.foldl_append, foldl_utf8Bytes, ih, List.reverse_cons,
        List.append_assoc, List.singleton_append]
  rw [ofUtf8, toUtf8_eq, hread, List.append_nil]
  exact List.reverse_reverse text

/-- No text in UTF-8 begins with a mark of UTF-16. -/
theorem markedOrder?_toUtf8 (text : List Char) : markedOrder? (toUtf8 text) = none := by
  -- the first byte of a character is below those of the marks
  have hfirst : ∀ c : Char, ∃ n rest, utf8Bytes c = byte n :: rest ∧ n < 0xF5 := by
    intro c
    have hcode := code_cases c
    unfold utf8Bytes
    dsimp only
    split
    · exact ⟨_, _, rfl, by omega⟩
    split
    · exact ⟨_, _, rfl, by omega⟩
    split
    · exact ⟨_, _, rfl, by omega⟩
    · exact ⟨_, _, rfl, by omega⟩
  cases text with
  | nil => rfl
  | cons c rest =>
    obtain ⟨n, more, hbytes, hn⟩ := hfirst c
    rw [toUtf8_eq, List.flatMap_cons, hbytes, List.cons_append]
    cases more ++ rest.flatMap utf8Bytes with
    | nil => rfl
    | cons b bs =>
      have hne : ∀ m : UInt8, 0xF5 ≤ m.toNat → (byte n == m) = false := by
        intro m hm
        rw [beq_eq_false_iff_ne]
        rintro rfl
        rw [toNat_byte (by omega)] at hm
        omega
      rw [markedOrder?, hne 0xFF (by decide), hne 0xFE (by decide)]
      rfl

/-! ## UTF-16 -/

theorem isHigh_iff : isHigh u = true ↔ 0xD800 ≤ u ∧ u ≤ 0xDBFF := by
  rw [isHigh, Bool.and_eq_true, Nat.ble_eq, Nat.ble_eq]

theorem isLow_iff : isLow u = true ↔ 0xDC00 ≤ u ∧ u ≤ 0xDFFF := by
  rw [isLow, Bool.and_eq_true, Nat.ble_eq, Nat.ble_eq]

/-- A unit is read from its two bytes, in either order. -/
theorem foldl_unitBytes (h : u < 0x10000) (o : ByteOrder) {s : Utf16State} (hhalf : s.half = none) :
    (unitBytes o u).foldl (Utf16State.step o) s = s.stepUnit u := by
  have hlow : (byte (u % 0x100)).toNat = u % 0x100 := toNat_byte (by omega)
  have hhigh : (byte (u / 0x100)).toNat = u / 0x100 := toNat_byte (by omega)
  have hsame : { s with half := none } = s := by rw [← hhalf]
  have hunit : ∀ a b, unitBytes o u = [a, b] → unit o a b = u := by
    intro a b hbytes
    cases o with
    | littleEndian =>
      obtain ⟨rfl, rfl⟩ : byte (u % 0x100) = a ∧ byte (u / 0x100) = b := by
        simpa [unitBytes] using hbytes
      rw [unit, hlow, hhigh]
      omega
    | bigEndian =>
      obtain ⟨rfl, rfl⟩ : byte (u / 0x100) = a ∧ byte (u % 0x100) = b := by
        simpa [unitBytes] using hbytes
      rw [unit, hlow, hhigh]
      omega
  obtain ⟨a, b, hbytes⟩ : ∃ a b, unitBytes o u = [a, b] := by
    cases o with
    | littleEndian => exact ⟨_, _, rfl⟩
    | bigEndian => exact ⟨_, _, rfl⟩
  rw [hbytes, List.foldl_cons, List.foldl_cons, List.foldl_nil]
  show Utf16State.step o (Utf16State.step o s a) b = _
  simp only [Utf16State.step, hhalf]
  rw [hunit a b hbytes, hsame]

/-- The bytes of a character, read when nothing has begun, add the character. -/
theorem foldl_units (o : ByteOrder) (c : Char) (done : List Char) :
    ((units c).flatMap (unitBytes o)).foldl (Utf16State.step o) { done } =
      { done := c :: done } := by
  have hcode := code_cases c
  have hchar : ∀ n, n = c.toNat → Char.ofNat n = c := by
    rintro n rfl
    exact Char.ofNat_toNat c
  unfold units
  generalize c.toNat = n at hcode hchar ⊢
  dsimp only
  split
  · -- one unit, which is no surrogate
    have hlow : isLow n = false := by
      rw [Bool.eq_false_iff, ne_eq, isLow_iff]
      omega
    have hhigh : isHigh n = false := by
      rw [Bool.eq_false_iff, ne_eq, isHigh_iff]
      omega
    rw [List.flatMap_singleton, foldl_unitBytes (by omega) o rfl, Utf16State.stepUnit, hlow, hhigh,
      hchar n rfl]
    rfl
  · -- a pair of surrogates
    generalize hh : 0xD800 + (n - 0x10000) / 0x400 = high
    generalize hl : 0xDC00 + (n - 0x10000) % 0x400 = low
    have hlow : isLow low = true := isLow_iff.mpr (by omega)
    have hhigh : isHigh high = true := isHigh_iff.mpr (by omega)
    have hnot : isLow high = false := by
      rw [Bool.eq_false_iff, ne_eq, isLow_iff]
      omega
    have hfirst : (unitBytes o high).foldl (Utf16State.step o) { done } =
        { done, high := some high } := by
      rw [foldl_unitBytes (by omega) o rfl]
      simp [Utf16State.stepUnit, hnot, hhigh]
    rw [List.flatMap_cons, List.flatMap_singleton, List.foldl_append, hfirst,
      foldl_unitBytes (by omega) o rfl]
    simp only [Utf16State.stepUnit, hlow, if_true]
    rw [hchar _ (by omega)]

/-- A text is read back from its bytes, in either order. -/
theorem ofUtf16_toUtf16 (o : ByteOrder) (text : List Char) :
    ofUtf16 o (toUtf16 o text) = text := by
  have hread : ∀ done : List Char, (toUtf16 o text).foldl (Utf16State.step o) { done } =
      { done := text.reverse ++ done } := by
    unfold toUtf16
    induction text with
    | nil => intro done; rfl
    | cons c rest ih =>
      intro done
      rw [List.flatMap_cons, List.foldl_append, foldl_units, ih, List.reverse_cons,
        List.append_assoc, List.singleton_append]
  rw [ofUtf16, hread, List.append_nil]
  exact List.reverse_reverse text

/-! ## Files -/

/-- The encodings of which a file can be told by its first bytes, or that need no mark. -/
def Scheme.IsTold : Scheme → Prop
  | utf8 | utf8Marked | utf16Marked _ => True
  | utf16 _ | latin1 => False

/-- The characters that a file has before its text. -/
def Scheme.heading : Scheme → List Char
  | utf8Marked => [markChar]
  | _ => []

/-- A file that is told is read as the text that was written into it. The mark of UTF-8 is taken for a
character. -/
theorem characters_encode {e : Scheme} (he : e.IsTold) (text : List Char) :
    characters (encode e text) = e.heading ++ text := by
  cases e with
  | utf8 =>
    rw [characters, encode, markedOrder?_toUtf8]
    exact ofUtf8_toUtf8 text
  | utf8Marked =>
    rw [characters, encode, markedOrder?_toUtf8]
    exact ofUtf8_toUtf8 (markChar :: text)
  | utf16Marked o =>
    have hmark : markedOrder? (mark o ++ toUtf16 o text) = some o ∧
        (mark o ++ toUtf16 o text).drop 2 = toUtf16 o text := by
      cases o with
      | littleEndian => exact ⟨rfl, rfl⟩
      | bigEndian => exact ⟨rfl, rfl⟩
    rw [characters, encode, hmark.1, hmark.2]
    exact ofUtf16_toUtf16 o text
  | utf16 o => exact he.elim
  | latin1 => exact he.elim

end DesignAudit.Encoding
