import DesignAudit.Text.LineEnd

/-!
# The ends of lines made one

Making the ends of lines one goes through a text from left to right (`unifyLineEnds_cons`), and changes
nothing but carriage returns (`unifyLineEnds_eq_self`, `head?_unifyLineEnds`).
-/

namespace DesignAudit.Text

theorem unifiedFrom_eq (done text : List Char) :
    unifiedFrom done text = done.reverse ++ unifyLineEnds text := by
  induction text generalizing done with
  | nil => simp [unifiedFrom, unifyLineEnds]
  | cons c rest ih =>
    rw [unifyLineEnds, unifiedFrom, unifiedFrom]
    split
    · split
      · rw [ih, ih []]
        rfl
      · rw [ih, ih ['\n'], List.reverse_cons, List.append_assoc]
        rfl
    · rw [ih, ih [c], List.reverse_cons, List.append_assoc]
      rfl

theorem unifyLineEnds_cons {c : Char} (h : c ≠ '\r') (rest : List Char) :
    unifyLineEnds (c :: rest) = c :: unifyLineEnds rest := by
  rw [unifyLineEnds, unifiedFrom, if_neg (by simpa using h), unifiedFrom_eq]
  rfl

/-- A text without carriage returns stays as it is. -/
theorem unifyLineEnds_eq_self {text : List Char} (h : '\r' ∉ text) : unifyLineEnds text = text := by
  induction text with
  | nil => rfl
  | cons c rest ih =>
    rw [List.mem_cons, not_or] at h
    rw [unifyLineEnds_cons (Ne.symm h.1), ih h.2]

/-- A carriage return at the beginning becomes a line feed; any other first character stays. -/
theorem head?_unifyLineEnds (text : List Char) :
    (unifyLineEnds text).head? = text.head?.map fun c => if c = '\r' then '\n' else c := by
  cases text with
  | nil => rfl
  | cons c rest =>
    by_cases hc : c = '\r'
    · subst hc
      rw [unifyLineEnds, unifiedFrom, if_pos (beq_self_eq_true _)]
      split
      · -- the line feed that follows is the end of the line
        rename_i hnext
        obtain ⟨more, rfl⟩ : ∃ more, rest = '\n' :: more := by
          cases rest with
          | nil => cases hnext
          | cons d more => exact ⟨more, by simpa using hnext⟩
        have hfeed := unifyLineEnds_cons (show '\n' ≠ '\r' by decide) more
        rw [unifyLineEnds] at hfeed
        rw [hfeed]
        rfl
      · rw [unifiedFrom_eq]
        rfl
    · rw [unifyLineEnds_cons hc]
      simp [hc]

end DesignAudit.Text
