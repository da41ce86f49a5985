import DesignAudit.Proofs.Text.Spelling

/-!
# Word characters and the forms of a letter

A character that is no word character has no word character among the forms of its letter
(`isWord_eq_false_of_sameLetter`). The one exception is the iota subscript, a mark that counts as the
letter iota. The case mappings go by runs of capitals, and most runs lie within one range of word characters,
as the small letters do, so that no capital has to be looked at by itself.
-/

namespace DesignAudit.Text

/-- The ranges of the characters of plain identifiers. -/
def plainRanges : Ranges := [(0x30, 0x39), (0x41, 0x5A), (0x5F, 0x5F), (0x61, 0x7A)]

def allWordRanges : Ranges := plainRanges ++ wordRanges

/-- Whether the codes between two bounds are within one range of word characters. -/
def withinWords (low high : Nat) : Bool :=
  allWordRanges.any fun w => Nat.ble w.1 low && Nat.ble high w.2

/-- Whether the codes between two bounds are outside of all ranges of word characters. -/
def outsideWords (low high : Nat) : Bool :=
  allWordRanges.all fun w => Nat.blt high w.1 || Nat.blt w.2 low

theorem isIdentifier_eq_has (c : Char) : isIdentifier c = plainRanges.has c := by
  by_cases hascii : c.toNat < 128
  · have hall : ∀ n < 128, isIdentifier (Char.ofNat n) = plainRanges.has (Char.ofNat n) := by
      decide +kernel
    have hc := hall c.toNat hascii
    rwa [Char.ofNat_toNat] at hc
  · have hidentifier : isIdentifier c = false := by
      rw [Bool.eq_false_iff]
      exact fun h => hascii (toNat_lt_of_isIdentifier h)
    have hplain : ∀ w ∈ plainRanges, w.2 < 128 := by decide
    rw [hidentifier, eq_comm, Ranges.has, List.any_eq_false]
    intro w hw
    have hlast := hplain w hw
    rw [Bool.and_eq_true, Nat.ble_eq, Nat.ble_eq]
    omega

theorem isWord_eq_has (c : Char) : isWord c = allWordRanges.has c := by
  have hfirst : ∀ w ∈ wordRanges, 0x80 ≤ w.1 := by decide +kernel
  have hbeyond : (Nat.ble 0x80 c.toNat && wordRanges.has c) = wordRanges.has c := by
    rw [Bool.and_eq_right_iff_imp, Ranges.has, List.any_eq_true]
    rintro ⟨w, hw, hin⟩
    rw [Bool.and_eq_true, Nat.ble_eq] at hin
    exact Nat.ble_eq.mpr ((hfirst w hw).trans hin.1)
  rw [isWord, hbeyond, isIdentifier_eq_has, allWordRanges, Ranges.has, Ranges.has, Ranges.has,
    List.any_append]

theorem isWord_of_withinWords {c : Char} {low high : Nat} (h : withinWords low high = true)
    (hlow : low ≤ c.toNat) (hhigh : c.toNat ≤ high) : isWord c = true := by
  obtain ⟨w, hw, hin⟩ := List.any_eq_true.mp h
  rw [Bool.and_eq_true, Nat.ble_eq, Nat.ble_eq] at hin
  rw [isWord_eq_has, Ranges.has, List.any_eq_true]
  refine ⟨w, hw, ?_⟩
  rw [Bool.and_eq_true, Nat.ble_eq, Nat.ble_eq]
  exact ⟨hin.1.trans hlow, hhigh.trans hin.2⟩

theorem isWord_of_outsideWords {c : Char} {low high : Nat} (h : outsideWords low high = true)
    (hlow : low ≤ c.toNat) (hhigh : c.toNat ≤ high) : isWord c = false := by
  rw [isWord_eq_has, Ranges.has, List.any_eq_false]
  intro w hw
  have hout := List.all_eq_true.mp h w hw
  rw [Bool.or_eq_true, Nat.blt_eq, Nat.blt_eq] at hout
  rw [Bool.and_eq_true, Nat.ble_eq, Nat.ble_eq]
  omega

/-! ## Runs of capitals -/

/-- A run of capitals that are word characters exactly if their small letters are: the whole run is
within words, or outside of them, or this is so of each capital. -/
def CaseRun.KeepsWords (r : CaseRun) : Prop :=
  withinWords r.first r.last = true ∧
      withinWords (r.first + r.shift).toNat (r.last + r.shift).toNat = true ∨
    outsideWords r.first r.last = true ∧
      outsideWords (r.first + r.shift).toNat (r.last + r.shift).toNat = true ∨
    ∀ k < r.last + 1 - r.first, k % r.step = 0 →
      isWord (charAt (↑(r.first + k) + r.shift)) = isWord (Char.ofNat (r.first + k))

instance (r : CaseRun) : Decidable r.KeepsWords := inferInstanceAs (Decidable (_ ∨ _))

/-- The code of the iota subscript, a mark that counts as the letter iota. -/
def iotaSubscript : Nat := 0x345

/-- The small letters of a run are characters, and the iota subscript is not among them. -/
def CaseRun.IsSound (r : CaseRun) : Prop :=
  0 ≤ r.first + r.shift ∧
    (r.last + r.shift < 0xD800 ∨ 0xDFFF < r.first + r.shift ∧ r.last + r.shift < 0x110000) ∧
    (r.last + r.shift < iotaSubscript ∨ iotaSubscript < r.first + r.shift)

instance (r : CaseRun) : Decidable r.IsSound := inferInstanceAs (Decidable (_ ∧ _))

theorem keepsWords_of_mem_caseRuns : ∀ r ∈ caseRuns, r.KeepsWords := by decide +kernel

theorem isSound_of_mem_caseRuns : ∀ r ∈ caseRuns, r.IsSound := by decide +kernel

theorem toNat_charAt {n : Int} (hpos : 0 ≤ n)
    (hvalid : n < 0xD800 ∨ 0xDFFF < n ∧ n < 0x110000) : ((charAt n).toNat : Int) = n := by
  have hnat : n.toNat.isValidChar := by
    rw [Nat.isValidChar]
    omega
  rw [charAt, Char.ofNat, dif_pos hnat]
  show ((n.toNat : Nat) : Int) = n
  omega

/-- The small form of a character: within ASCII, that of the dotted capital I, that of a capital of a
run, or the character itself. -/
theorem lowerChar_cases (c : Char) :
    c.toNat < 128 ∧ lowerChar c = c.toLower ∨ c = Char.ofNat 0x130 ∧ lowerChar c = 'i' ∨
      (∃ r ∈ caseRuns, (r.first ≤ c.toNat ∧ c.toNat ≤ r.last ∧ (c.toNat - r.first) % r.step = 0) ∧
        lowerChar c = charAt (c.toNat + r.shift) ∧
        ((lowerChar c).toNat : Int) = c.toNat + r.shift) ∨
      lowerChar c = c := by
  rw [lowerChar]
  split
  · rename_i hascii
    exact .inl ⟨hascii, rfl⟩
  · split
    · rename_i hdotted
      exact .inr (.inl ⟨by rw [← beq_iff_eq.mp hdotted, Char.ofNat_toNat], rfl⟩)
    · split
      · rename_i r hfind
        have hr := List.mem_of_find?_eq_some hfind
        have hin := List.find?_some hfind
        simp only [Bool.and_eq_true, Nat.ble_eq, beq_iff_eq, and_assoc] at hin
        obtain ⟨hpos, hvalid, -⟩ := isSound_of_mem_caseRuns r hr
        exact .inr (.inr (.inl ⟨r, hr, hin, rfl, toNat_charAt (by omega) (by omega)⟩))
      · exact .inr (.inr (.inr rfl))

/-- The small form of a word character is a word character, and that of another character is none. -/
theorem isWord_lowerChar (c : Char) : isWord (lowerChar c) = isWord c := by
  obtain ⟨hascii, hlower⟩ | ⟨rfl, hlower⟩ | ⟨r, hr, ⟨hfirst, hlast, hstep⟩, hlower, hsmall⟩ | hlower :=
    lowerChar_cases c
  · have hall : ∀ n < 128, isWord (Char.ofNat n).toLower = isWord (Char.ofNat n) := by
      decide +kernel
    have hc := hall c.toNat hascii
    rw [Char.ofNat_toNat] at hc
    rw [hlower, hc]
  · rw [hlower]
    decide +kernel
  · rcases keepsWords_of_mem_caseRuns r hr with ⟨hbig, hlittle⟩ | ⟨hbig, hlittle⟩ | hpoint
    · rw [isWord_of_withinWords hbig hfirst hlast,
        isWord_of_withinWords hlittle (by omega) (by omega)]
    · rw [isWord_of_outsideWords hbig hfirst hlast,
        isWord_of_outsideWords hlittle (by omega) (by omega)]
    · have hc := hpoint (c.toNat - r.first) (by omega) hstep
      rwa [Nat.add_sub_cancel' hfirst, Char.ofNat_toNat, ← hlower] at hc
  · rw [hlower]

/-- The iota subscript is the small form of no other character. -/
theorem toNat_eq_of_lowerChar {c : Char} (h : (lowerChar c).toNat = iotaSubscript) :
    c.toNat = iotaSubscript := by
  obtain ⟨hascii, hlower⟩ | ⟨rfl, hlower⟩ | ⟨r, hr, ⟨hfirst, hlast, -⟩, -, hsmall⟩ | hlower :=
    lowerChar_cases c
  · have hall : ∀ n < 128, (Char.ofNat n).toLower.toNat ≠ iotaSubscript := by decide +kernel
    have hc := hall c.toNat hascii
    rw [Char.ofNat_toNat, ← hlower] at hc
    exact absurd h hc
  · rw [hlower] at h
    exact absurd h (by decide)
  · obtain ⟨-, -, hapart⟩ := isSound_of_mem_caseRuns r hr
    omega
  · rwa [hlower] at h

/-- The forms of a letter that is no word character are none either, the iota subscript apart. -/
theorem isWord_eq_false_of_sameLetter {a b : Char} (h : sameLetter a b = true)
    (ha : a.toNat ≠ iotaSubscript) (hword : isWord a = false) : isWord b = false := by
  rw [← isWord_lowerChar] at hword ⊢
  rw [sameLetter, Bool.or_eq_true, beq_iff_eq, List.any_eq_true] at h
  rcases h with h | ⟨family, hfamily, hboth⟩
  · rwa [← h]
  · -- all members of the families but one are word characters
    have hwords : ∀ family ∈ letterFamilies, ∀ n ∈ family, n ≠ iotaSubscript →
        isWord (Char.ofNat n) = true := by decide +kernel
    rw [Bool.and_eq_true, List.contains_iff_mem] at hboth
    have hlower := hwords family hfamily _ hboth.1 (mt toNat_eq_of_lowerChar ha)
    rw [Char.ofNat_toNat, hword] at hlower
    cases hlower

end DesignAudit.Text
