import DesignAudit.Proofs.Text.Pattern
import DesignAudit.Proofs.Text.Search
import DesignAudit.Proofs.Traversal

/-!
# The letters of a word

A word is looked for without regard to case, and some characters count as a letter although they are
no form of it. `smallForms` lists what a letter may be in small: letters without a common small form
are told apart (`not_sameLetter_of_apart`), so that a word holds no letter but its own
(`Spells.not_mem_of_apart`), no blank and no sign.
-/

namespace DesignAudit.Text

/-- The codes of the small characters that count as the letter of a character. -/
def smallForms (c : Char) : List Nat :=
  (lowerChar c).toNat :: (letterFamilies.filter (·.contains (lowerChar c).toNat)).flatten

/-- Two letters that no character stands for at once. -/
def LettersApart (a b : Char) : Prop := ∀ n ∈ smallForms a, n ∉ smallForms b

instance (a b : Char) : Decidable (LettersApart a b) :=
  inferInstanceAs (Decidable (∀ n ∈ smallForms a, n ∉ smallForms b))

theorem mem_smallForms_of_sameLetter {a c : Char} (h : sameLetter a c = true) :
    (lowerChar c).toNat ∈ smallForms a := by
  rw [sameLetter, Bool.or_eq_true, beq_iff_eq, List.any_eq_true] at h
  rcases h with h | ⟨family, hfamily, hboth⟩
  · rw [← h]
    exact List.mem_cons_self
  · rw [Bool.and_eq_true] at hboth
    exact List.mem_cons_of_mem _ (List.mem_flatten.mpr
      ⟨family, List.mem_filter.mpr ⟨hfamily, hboth.1⟩, List.contains_iff_mem.mp hboth.2⟩)

theorem not_sameLetter_of_apart {a b c : Char} (hapart : LettersApart a b)
    (ha : sameLetter a c = true) : sameLetter b c = false := by
  rw [← Bool.not_eq_true]
  exact fun hb =>
    hapart _ (mem_smallForms_of_sameLetter ha) (mem_smallForms_of_sameLetter hb)

/-- The letters that keywords are written with. -/
def capitalLetters : List Char := "ABCDEFGHIJKLMNOPQRSTUVWXYZ".toList

theorem not_isBlank_of_sameLetter {a c : Char} (ha : a ∈ capitalLetters)
    (h : sameLetter a c = true) : isBlank c = false := by
  have hall : ∀ a ∈ capitalLetters, ∀ n ∈ blankCodes, sameLetter a (Char.ofNat n) = false := by
    decide +kernel
  rw [← Bool.not_eq_true]
  intro hblank
  have hc := hall a ha _ (toNat_mem_blankCodes hblank)
  rw [Char.ofNat_toNat, h] at hc
  cases hc

theorem ne_of_sameLetter {a c d : Char} (ha : a ∈ capitalLetters) (h : sameLetter a c = true)
    (hd : d ∈ [',', '(', ')', '.']) : c ≠ d := by
  have hall : ∀ a ∈ capitalLetters, ∀ d ∈ [',', '(', ')', '.'], sameLetter a d = false := by
    decide +kernel
  rintro rfl
  rw [hall a ha c hd] at h
  cases h

namespace Pattern

variable {s : String} {cs : List Char} {c : Char}

theorem Spells.exists_letter (h : Spells s cs) (hc : c ∈ cs) :
    ∃ a ∈ s.toList, sameLetter a c = true :=
  Traversal.exists_mem_of_forall₂ h.flip hc

theorem Spells.not_mem_of_apart (h : Spells s cs) {a : Char}
    (hapart : ∀ b ∈ s.toList, LettersApart a b) (ha : sameLetter a c = true) : c ∉ cs := by
  intro hc
  obtain ⟨b, hb, hletter⟩ := h.exists_letter hc
  rw [not_sameLetter_of_apart (hapart b hb) ha] at hletter
  cases hletter

theorem Spells.not_isBlank (h : Spells s cs) (hs : ∀ a ∈ s.toList, a ∈ capitalLetters)
    (hc : c ∈ cs) : isBlank c = false := by
  obtain ⟨a, ha, hletter⟩ := h.exists_letter hc
  exact not_isBlank_of_sameLetter (hs a ha) hletter

theorem Spells.ne_sign (h : Spells s cs) (hs : ∀ a ∈ s.toList, a ∈ capitalLetters) (hc : c ∈ cs)
    {d : Char} (hd : d ∈ [',', '(', ')', '.']) : c ≠ d := by
  obtain ⟨a, ha, hletter⟩ := h.exists_letter hc
  exact ne_of_sameLetter (hs a ha) hletter hd

end Pattern

end DesignAudit.Text
