import DesignAudit.Proofs.Text.Search

/-!
# Cutting a text at a separator

`upTo` gives what stands before the first occurrence of a separator. It is the first piece of a text
that is cut (`cut_eq_cons`), and what follows the separator is cut in turn (`cut_append`). There
is a second piece exactly if the separator occurs (`exists_second_iff`), and nothing of the text is
lost (`flatMap_cut`).
-/

namespace DesignAudit.Text

variable {sep : List Char}

/-- What stands before the first occurrence of a separator, or the whole text. -/
def upTo (sep : List Char) : List Char → List Char
  | [] => []
  | c :: rest => if sep.isPrefixOf (c :: rest) then [] else c :: upTo sep rest

variable {d : Char} {rest text : List Char}

theorem upTo_cons_of_starts {c : Char} (h : sep <+: c :: rest) :
    upTo sep (c :: rest) = [] :=
  if_pos (List.isPrefixOf_iff_prefix.mpr h)

theorem upTo_cons_of_not_starts {c : Char} (h : ¬ sep <+: c :: rest) :
    upTo sep (c :: rest) = c :: upTo sep rest :=
  if_neg (mt List.isPrefixOf_iff_prefix.mp h)

theorem upTo_prefix_text (sep text : List Char) : upTo sep text <+: text := by
  induction text with
  | nil => exact List.prefix_rfl
  | cons c rest ih =>
    rw [upTo]
    split
    · exact List.nil_prefix
    · exact List.cons_prefix_cons.mpr ⟨rfl, ih⟩

/-- A text is taken whole exactly if the separator does not occur in it. -/
theorem upTo_eq_self_iff (hsep : sep ≠ []) :
    upTo sep text = text ↔ ¬ sep <:+: text := by
  induction text with
  | nil => simp [upTo, hsep]
  | cons c rest ih =>
    rw [List.infix_cons_iff, not_or, ← ih]
    by_cases h : sep <+: c :: rest
    · simp [upTo_cons_of_starts h, h]
    · simp [upTo_cons_of_not_starts h, h]

/-- A separator that begins before a character it lacks also ends before it. -/
theorem prefix_append_cons_iff (hd : d ∉ sep) (text rest : List Char) :
    sep <+: text ++ d :: rest ↔ sep <+: text := by
  refine ⟨fun h => ?_, fun h => h.trans (List.prefix_append _ _)⟩
  rcases List.prefix_or_prefix_of_prefix h (List.prefix_append text _) with hle | ⟨more, hmore⟩
  · exact hle
  · rw [← hmore, List.prefix_append_right_inj] at h
    cases more with
    | nil =>
      rw [List.append_nil] at hmore
      exact hmore ▸ List.prefix_rfl
    | cons e more =>
      obtain rfl := (List.cons_prefix_cons.mp h).1
      exact absurd (hmore ▸ List.mem_append_right _ List.mem_cons_self) hd

/-- What stands before a character goes past a text that lacks the character. -/
theorem exists_append_of_not_mem {xs ys text rest : List Char} (hd : d ∉ xs)
    (h : text ++ d :: rest = xs ++ ys) : ∃ more, text = xs ++ more ∧ ys = more ++ d :: rest := by
  obtain ⟨more, rfl⟩ := (prefix_append_cons_iff hd text rest).mp ⟨ys, h.symm⟩
  rw [List.append_assoc] at h
  exact ⟨more, rfl, (List.append_cancel_left h).symm⟩

/-- A character that the separator lacks ends the search for what stands before both, so that nothing
behind it matters. -/
theorem upTo_singleton_upTo (hsep : sep ≠ []) (hd : d ∉ sep) (text rest : List Char) :
    upTo [d] (upTo sep (text ++ d :: rest)) = upTo [d] (upTo sep text) := by
  induction text with
  | nil =>
    have hnot : ¬ sep <+: d :: rest := by
      intro h
      obtain ⟨c, s, rfl⟩ := List.exists_cons_of_ne_nil hsep
      exact hd ((List.cons_prefix_cons.mp h).1 ▸ List.mem_cons_self)
    rw [List.nil_append, upTo_cons_of_not_starts hnot]
    exact upTo_cons_of_starts (List.prefix_append [d] _)
  | cons c text ih =>
    have hlonger : sep <+: c :: (text ++ d :: rest) ↔ sep <+: c :: text :=
      prefix_append_cons_iff hd (c :: text) rest
    rw [List.cons_append]
    by_cases h : sep <+: c :: text
    · rw [upTo_cons_of_starts h, upTo_cons_of_starts (hlonger.mpr h)]
    · rw [upTo_cons_of_not_starts h, upTo_cons_of_not_starts (mt hlonger.mp h)]
      by_cases hc : d = c
      · have hmore : ∀ xs, [d] <+: c :: xs := fun xs => hc ▸ List.prefix_append [d] xs
        rw [upTo_cons_of_starts (hmore _), upTo_cons_of_starts (hmore _)]
      · have hmore : ∀ xs, ¬ [d] <+: c :: xs := fun xs h => hc (List.cons_prefix_cons.mp h).1
        rw [upTo_cons_of_not_starts (hmore _), upTo_cons_of_not_starts (hmore _), ih]

/-- A beginning of a text from which the whole text is taken is the whole text. -/
theorem eq_self_of_upTo_eq {start text : List Char} (h : upTo sep start = text)
    (hstart : start <+: text) : start = text :=
  hstart.eq_of_length_le (h ▸ (upTo_prefix_text sep start).length_le)

/-! ## Pieces -/

theorem cutFrom_skip (sep piece : List Char) (skip : Nat) (text : List Char) :
    cutFrom sep skip piece text = cutFrom sep 0 piece (text.drop skip) := by
  induction text generalizing skip with
  | nil => cases skip <;> rfl
  | cons c rest ih =>
    cases skip with
    | zero => rfl
    | succ skip => rw [cutFrom, ih, List.drop_succ_cons]

/-- The pieces of a text, of which the first one has begun with another text. -/
theorem cutFrom_eq (sep piece text : List Char) :
    cutFrom sep 0 piece text = (piece.reverse ++ upTo sep text) :: (cut sep text).tail := by
  induction text generalizing piece with
  | nil => simp [cutFrom, cut, upTo]
  | cons c rest ih =>
    rw [cut, cutFrom, cutFrom]
    split
    · rename_i h
      rw [upTo_cons_of_starts (List.isPrefixOf_iff_prefix.mp h)]
      simp
    · rename_i h
      rw [upTo_cons_of_not_starts (mt List.isPrefixOf_iff_prefix.mpr h), ih, ih [c]]
      simp

/-- The first piece of a text is what stands before the separator. -/
theorem cut_eq_cons (sep text : List Char) :
    cut sep text = upTo sep text :: (cut sep text).tail :=
  cutFrom_eq sep [] text

theorem cut_of_not_occurs (hsep : sep ≠ []) (h : ¬ sep <:+: text) :
    cut sep text = [text] := by
  induction text with
  | nil => rfl
  | cons c rest ih =>
    rw [List.infix_cons_iff, not_or] at h
    have hstep : cut sep (c :: rest) = cutFrom sep 0 [c] rest :=
      if_neg (mt List.isPrefixOf_iff_prefix.mp h.1)
    rw [hstep, cutFrom_eq sep, ih h.2, (upTo_eq_self_iff hsep).mpr h.2]
    rfl

/-- At the separator a piece ends, and what follows is cut in turn. -/
theorem cut_append (hsep : sep ≠ []) (rest : List Char) :
    cut sep (sep ++ rest) = [] :: cut sep rest := by
  obtain ⟨c, s, rfl⟩ := List.exists_cons_of_ne_nil hsep
  have hstep : cut (c :: s) ((c :: s) ++ rest) =
      [] :: cutFrom (c :: s) s.length [] (s ++ rest) :=
    if_pos (List.isPrefixOf_iff_prefix.mpr (List.prefix_append (c :: s) rest))
  rw [hstep, cutFrom_skip, List.drop_left]
  rfl

/-- The first piece ends at the first place of a separator of one character. -/
theorem cut_singleton_append {piece : List Char} (hd : d ∉ piece) (rest : List Char) :
    cut [d] (piece ++ d :: rest) = piece :: cut [d] rest := by
  induction piece with
  | nil => exact cut_append (List.cons_ne_nil d []) rest
  | cons c piece ih =>
    rw [List.mem_cons, not_or] at hd
    have hpiece := ih hd.2
    have hstarts : ¬ [d] <+: c :: (piece ++ d :: rest) := fun h =>
      hd.1 (List.cons_prefix_cons.mp h).1
    have hstep : cut [d] (c :: (piece ++ d :: rest)) = cutFrom [d] 0 [c] (piece ++ d :: rest) :=
      if_neg (mt List.isPrefixOf_iff_prefix.mp hstarts)
    have hfirst : upTo [d] (piece ++ d :: rest) = piece := by
      rw [cut_eq_cons] at hpiece
      exact (List.cons.inj hpiece).1
    rw [List.cons_append, hstep, cutFrom_eq, hpiece, hfirst]
    rfl

theorem flatMap_cutFrom (d : Char) (piece text : List Char) :
    (cutFrom [d] 0 piece text).flatMap (· ++ [d]) = piece.reverse ++ text ++ [d] := by
  induction text generalizing piece with
  | nil => simp [cutFrom]
  | cons c text ih =>
    rw [cutFrom]
    by_cases hc : [d].isPrefixOf (c :: text)
    · obtain rfl : d = c := (List.cons_prefix_cons.mp (List.isPrefixOf_iff_prefix.mp hc)).1
      rw [if_pos hc, List.flatMap_cons, List.length_singleton, Nat.sub_self, ih]
      simp
    · rw [if_neg hc, ih]
      simp

/-- The pieces of a text, each with the separator after it, are the text with one separator more. -/
theorem flatMap_cut (d : Char) (text : List Char) :
    (cut [d] text).flatMap (· ++ [d]) = text ++ [d] :=
  flatMap_cutFrom d [] text

/-- There is a second piece exactly if the separator occurs. -/
theorem exists_second_iff (hsep : sep ≠ []) :
    (∃ a b more, cut sep text = a :: b :: more) ↔ sep <:+: text := by
  constructor
  · rintro ⟨a, b, more, h⟩
    by_contra hnot
    rw [cut_of_not_occurs hsep hnot] at h
    cases h
  · intro h
    induction text with
    | nil => exact absurd (List.infix_nil.mp h) hsep
    | cons c rest ih =>
      by_cases hstarts : sep <+: c :: rest
      · obtain ⟨after, hafter⟩ := hstarts
        rw [← hafter, cut_append hsep, cut_eq_cons]
        exact ⟨_, _, _, rfl⟩
      · obtain ⟨a, b, more, hrest⟩ := ih ((List.infix_cons_iff.mp h).resolve_left hstarts)
        have hstep : cut sep (c :: rest) = cutFrom sep 0 [c] rest :=
          if_neg (mt List.isPrefixOf_iff_prefix.mp hstarts)
        rw [hstep, cutFrom_eq sep, hrest]
        exact ⟨_, _, _, rfl⟩

/-! ## The first separator -/

/-- A separator behind a text is found there if it does not begin within the text. -/
theorem position?_append (rest : List Char)
    (h : ∀ start, start <:+ text → start ≠ [] → ¬ sep <+: start ++ (sep ++ rest)) :
    position? sep (text ++ (sep ++ rest)) = some text.length := by
  induction text with
  | nil =>
    cases sep with
    | nil => cases rest <;> simp [position?]
    | cons d sep =>
      have hstarts : (d :: sep) <+: d :: (sep ++ rest) := List.prefix_append (d :: sep) rest
      simp only [List.nil_append, List.cons_append, position?,
        List.isPrefixOf_iff_prefix.mpr hstarts, if_true, List.length_nil]
  | cons c text ih =>
    have hnot : sep.isPrefixOf (c :: (text ++ (sep ++ rest))) = false := by
      rw [← Bool.not_eq_true, List.isPrefixOf_iff_prefix]
      exact h _ List.suffix_rfl (List.cons_ne_nil c text)
    rw [List.cons_append, position?, hnot, if_neg Bool.false_ne_true,
      ih fun start hstart => h start (hstart.trans (List.suffix_cons c text)), Option.map_some,
      List.length_cons]

theorem position?_eq_none (hsep : sep ≠ []) (h : ¬ sep <:+: text) :
    position? sep text = none := by
  induction text with
  | nil => simp [position?, hsep]
  | cons c text ih =>
    rw [List.infix_cons_iff, not_or] at h
    rw [position?, if_neg (mt List.isPrefixOf_iff_prefix.mp h.1), ih h.2, Option.map_none]

/-- A text is cut where the separator was put, unless the separator begins before. -/
theorem cutOnce?_append {sep before : String} (after : String)
    (h : ∀ start, start <:+ before.toList → start ≠ [] →
      ¬ sep.toList <+: start ++ (sep.toList ++ after.toList)) :
    cutOnce? sep (before ++ sep ++ after) = some (before, after) := by
  have htext : (before ++ sep ++ after).toList =
      before.toList ++ (sep.toList ++ after.toList) := by simp
  rw [cutOnce?, htext, position?_append _ h, Option.map_some, List.take_left, ← List.length_append,
    ← List.append_assoc, List.drop_left, String.ofList_toList, String.ofList_toList]

theorem cutOnce?_eq_none {sep text : String} (hsep : sep.toList ≠ []) (h : has sep text = false) :
    cutOnce? sep text = none := by
  rw [cutOnce?, position?_eq_none hsep (has_eq_false_iff.mp h), Option.map_none]

end DesignAudit.Text
