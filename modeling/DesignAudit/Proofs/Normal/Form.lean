import DesignAudit.Normal.Form
import DesignAudit.Proofs.Normal.Pictograph

/-!
# The normal form of a text

The eleven replacements come down to three passes (`replaced_eq`): double question marks become plus
signs, typographic quotes become plain ones character by character, and a space is put behind each
quote that an end of a tag or a semicolon follows directly. No pass brings back what an earlier one
has removed, so none of the replaced parts is left (`not_infix_normalised`). And no pass makes a
pictograph out of characters that it brings together, so that a text without zero-width joiners is
in its normal form after one run (`normalised_normalised`).
-/

namespace DesignAudit.Normal

open Text

variable {text : List Char}

/-! ## Spaces behind quotes -/

def quotes : List Char := ['"', '\'']

/-- The typographic quotes, each with the plain quote for it. -/
def plainQuotes : List (Char × Char) :=
  [('“', '"'), ('”', '"'), ('„', '"'), ('‟', '"'), ('‘', '\''), ('’', '\'')]

/-- The plain quote for a typographic one; every other character stays as it is. -/
def plainQuote (c : Char) : Char := (plainQuotes.lookup c).getD c

/-- Puts a space behind the first character of each of the given parts. -/
def spaced (parts : List (List Char)) : List Char → List Char
  | [] => []
  | c :: rest =>
    if parts.any (·.isPrefixOf (c :: rest)) then c :: ' ' :: spaced parts rest
    else c :: spaced parts rest

/-- A quote and what is kept apart from it. -/
structure IsEdge (part : List Char) : Prop where
  quoted : ∃ q ∈ quotes, part.head? = some q
  closed : part.tail ≠ []
  apart : ∀ c ∈ part.tail, c ∉ quotes ∧ c ≠ ' '

/-- The four edges, in the order in which they are replaced. -/
def edges : List (List Char) :=
  [['"', '/', '>'], ['\'', '/', '>'], ['"', ';'], ['\'', ';']]

theorem isEdge_of_mem_edges : ∀ part ∈ edges, IsEdge part := by
  simp only [edges, List.forall_mem_cons, List.not_mem_nil, false_imp_iff, implies_true, and_true]
  have hdouble : '"' ∈ quotes := List.mem_cons_self
  have hsingle : '\'' ∈ quotes := List.mem_cons_of_mem _ List.mem_cons_self
  exact ⟨⟨⟨_, hdouble, rfl⟩, by decide, by decide⟩, ⟨⟨_, hsingle, rfl⟩, by decide, by decide⟩,
    ⟨⟨_, hdouble, rfl⟩, by decide, by decide⟩, ⟨_, hsingle, rfl⟩, by decide, by decide⟩

theorem IsEdge.exists_eq {part : List Char} (h : IsEdge part) :
    ∃ q ∈ quotes, ∃ s, part = q :: s := by
  obtain ⟨q, hq, hhead⟩ := h.quoted
  cases part with
  | nil => cases hhead
  | cons c s => exact ⟨q, hq, s, by rw [Option.some.inj hhead]⟩

theorem IsEdge.ne_nil {part : List Char} (h : IsEdge part) : part ≠ [] := by
  obtain ⟨q, -, s, rfl⟩ := h.exists_eq
  exact List.cons_ne_nil q s

theorem spaced_cons_of_any {parts : List (List Char)} {c : Char} {rest : List Char}
    (h : parts.any (·.isPrefixOf (c :: rest)) = true) :
    spaced parts (c :: rest) = c :: ' ' :: spaced parts rest := by
  rw [spaced, if_pos h]

section Spacing

variable {parts : List (List Char)} (hparts : ∀ part ∈ parts, IsEdge part)

include hparts

theorem mem_quotes_of_any {c : Char} {rest : List Char}
    (h : parts.any (·.isPrefixOf (c :: rest)) = true) : c ∈ quotes := by
  obtain ⟨part, hmem, hbegin⟩ := List.any_eq_true.mp h
  obtain ⟨q, hq, s, rfl⟩ := (hparts part hmem).exists_eq
  rw [List.isPrefixOf_iff_prefix, List.cons_prefix_cons] at hbegin
  exact hbegin.1 ▸ hq

theorem spaced_cons_of_not_mem {c : Char} (hc : c ∉ quotes) (rest : List Char) :
    spaced parts (c :: rest) = c :: spaced parts rest := by
  rw [spaced, if_neg fun h => hc (mem_quotes_of_any hparts h)]

theorem spaced_append_of_not_mem {s : List Char} (hs : ∀ c ∈ s, c ∉ quotes) (rest : List Char) :
    spaced parts (s ++ rest) = s ++ spaced parts rest := by
  induction s with
  | nil => rfl
  | cons c s ih =>
    rw [List.cons_append, spaced_cons_of_not_mem hparts (hs c List.mem_cons_self),
      ih fun d hd => hs d (List.mem_cons_of_mem c hd), List.cons_append]

/-- Spaces come behind quotes only, so that a beginning without quotes and spaces is the same with
them and without. -/
theorem prefix_spaced_iff {s rest : List Char} (hs : ∀ c ∈ s, c ∉ quotes) :
    s <+: spaced parts rest ↔ s <+: rest := by
  induction s generalizing rest with
  | nil => simp
  | cons x s ih =>
    cases rest with
    | nil => simp [spaced]
    | cons c rest =>
      by_cases hc : c = x
      · subst hc
        rw [spaced_cons_of_not_mem hparts (hs c List.mem_cons_self), List.cons_prefix_cons,
          List.cons_prefix_cons, ih fun d hd => hs d (List.mem_cons_of_mem c hd)]
      · have hhead : ∀ t, ¬ x :: s <+: c :: t := fun t h => hc (List.cons_prefix_cons.mp h).1.symm
        rw [spaced]
        split
        · simp only [hhead]
        · simp only [hhead]

omit hparts in
theorem recast_spaced (text : List Char) : Recast [' '] text (spaced parts text) := by
  induction text with
  | nil => exact .nil
  | cons c rest ih =>
    rw [spaced]
    split
    · exact .keep c (.make List.mem_cons_self [] ih)
    · exact .keep c ih

/-- A further edge can be treated in the same pass. -/
theorem spaced_spaced {part : List Char} (hpart : IsEdge part) (text : List Char) :
    spaced [part] (spaced parts text) = spaced (parts ++ [part]) text := by
  have hone : ∀ p ∈ [part], IsEdge p := List.forall_mem_singleton.mpr hpart
  obtain ⟨q, hq, s, rfl⟩ := hpart.exists_eq
  have hs : ∀ c ∈ s, c ∉ quotes := fun c hc => (hpart.apart c hc).1
  induction text with
  | nil => rfl
  | cons c rest ih =>
    rw [spaced, spaced.eq_def (parts ++ [q :: s])]
    simp only [List.any_append, List.any_cons, List.any_nil, Bool.or_false]
    split
    · -- the space that was put behind the quote is no part of an edge
      rename_i hany
      have hspace : ¬ (q :: s) <+: c :: ' ' :: spaced parts rest := by
        rw [List.cons_prefix_cons]
        rintro ⟨-, hbegin⟩
        cases s with
        | nil => exact hpart.closed rfl
        | cons x s =>
          rw [List.cons_prefix_cons] at hbegin
          exact (hpart.apart x List.mem_cons_self).2 hbegin.1
      have hno : [q :: s].any (·.isPrefixOf (c :: ' ' :: spaced parts rest)) = false := by
        simpa [Bool.eq_false_iff] using hspace
      rw [spaced, hno, spaced_cons_of_not_mem hone (by decide), ih]
      simp [hany]
    · rename_i hany
      have hsame : (q :: s).isPrefixOf (c :: spaced parts rest) =
          (q :: s).isPrefixOf (c :: rest) := by
        rw [Bool.eq_iff_iff, List.isPrefixOf_iff_prefix, List.isPrefixOf_iff_prefix,
          List.cons_prefix_cons, List.cons_prefix_cons, prefix_spaced_iff hparts hs]
      rw [spaced, List.any_cons, List.any_nil, Bool.or_false, hsame, ih]
      simp [hany]

/-- No edge is left. -/
theorem not_infix_spaced {part : List Char} (hmem : part ∈ parts) (text : List Char) :
    ¬ part <:+: spaced parts text := by
  obtain ⟨q, hq, s, rfl⟩ := (hparts part hmem).exists_eq
  have hedge := hparts _ hmem
  have hs : ∀ c ∈ s, c ∉ quotes := fun c hc => (hedge.apart c hc).1
  induction text with
  | nil => simp [spaced]
  | cons c rest ih =>
    rw [spaced]
    split
    · rw [List.infix_cons_iff, List.infix_cons_iff, not_or, not_or]
      refine ⟨fun hbegin => ?_, fun hbegin => ?_, ih⟩
      · cases s with
        | nil => exact hedge.closed rfl
        | cons x s =>
          rw [List.cons_prefix_cons, List.cons_prefix_cons] at hbegin
          exact (hedge.apart x List.mem_cons_self).2 hbegin.2.1
      · rw [List.cons_prefix_cons] at hbegin
        exact absurd (hbegin.1 ▸ hq) (by decide)
    · rename_i hany
      rw [List.infix_cons_iff, not_or]
      refine ⟨fun hbegin => hany ?_, ih⟩
      rw [List.cons_prefix_cons, prefix_spaced_iff hparts hs, ← List.cons_prefix_cons] at hbegin
      exact List.any_eq_true.mpr ⟨_, hmem, List.isPrefixOf_iff_prefix.mpr hbegin⟩

omit hparts in
theorem spaced_eq_self (h : ∀ part ∈ parts, ¬ part <:+: text) : spaced parts text = text := by
  induction text with
  | nil => rfl
  | cons c rest ih =>
    have hany : ¬ parts.any (·.isPrefixOf (c :: rest)) = true := by
      rw [List.any_eq_true]
      rintro ⟨part, hmem, hbegin⟩
      exact h part hmem (List.isPrefixOf_iff_prefix.mp hbegin).isInfix
    rw [spaced, if_neg hany, ih fun part hmem hwithin =>
      h part hmem (hwithin.trans (List.suffix_cons c rest).isInfix)]

end Spacing

/-- The replacement of one edge is the pass for this edge. -/
theorem replaceParts_edge {q : Char} {s : List Char} (h : IsEdge (q :: s)) (text : List Char) :
    replaceParts (q :: s) (q :: ' ' :: s) text = spaced [q :: s] text := by
  have hone : ∀ p ∈ [q :: s], IsEdge p := List.forall_mem_singleton.mpr h
  have hs : ∀ c ∈ s, c ∉ quotes := fun c hc => (h.apart c hc).1
  induction text using replacing_induction h.ne_nil with
  | nil => rfl
  | passed rest ih =>
    have hany : [q :: s].any (·.isPrefixOf (q :: (s ++ rest))) = true := by
      simp [List.isPrefixOf_iff_prefix]
    rw [replaceParts_part_append h.ne_nil, ih, @List.cons_append _ q s rest, spaced_cons_of_any hany,
      spaced_append_of_not_mem hone hs]
    rfl
  | kept c rest hstarts ih =>
    have hany : ¬ [q :: s].any (·.isPrefixOf (c :: rest)) = true := by
      simpa [List.isPrefixOf_iff_prefix] using hstarts
    rw [replaceParts_cons hstarts, ih, spaced, if_neg hany]

/-! ## The replacements -/

/-- The replacements in three passes. -/
theorem replaced_eq (text : List Char) :
    replaced text = spaced edges ((replaceParts ['?', '?'] ['+'] text).map plainQuote) := by
  have hedge := isEdge_of_mem_edges
  simp only [edges, List.forall_mem_cons, List.not_mem_nil, false_imp_iff, implies_true,
    and_true] at hedge
  obtain ⟨h1, h2, h3, h4⟩ := hedge
  have hplain : ∀ p ∈ plainQuotes, plainQuotes.lookup p.2 = none := by decide
  have hquotes := foldl_replaceParts_singleton hplain (replaceParts ['?', '?'] ['+'] text)
  simp only [plainQuotes, List.foldl_cons, List.foldl_nil] at hquotes
  simp only [replaced, replacements, lostPictograph, List.foldl_cons, List.foldl_nil,
    String.reduceToList]
  rw [hquotes, replaceParts_edge h1, replaceParts_edge h2, replaceParts_edge h3,
    replaceParts_edge h4, spaced_spaced (List.forall_mem_singleton.mpr h1) h2,
    spaced_spaced (by simpa using ⟨h1, h2⟩) h3, spaced_spaced (by simpa using ⟨h1, h2, h3⟩) h4]
  rfl

theorem normalised_eq_replaced (text : List Char) :
    normalised text = replaced (scanned category text) := by
  rw [normalised, withoutPictographs_eq]

/-- The normal form in four passes. -/
theorem normalised_eq (text : List Char) :
    normalised text =
      spaced edges ((replaceParts ['?', '?'] ['+'] (scanned category text)).map plainQuote) := by
  rw [normalised_eq_replaced, replaced_eq]

/-! ## What is made and what is left -/

/-- The characters that the normal form brings into a text. -/
def madeChars : List Char := ['+', '"', '\'', ' ']

theorem plainQuote_of_lookup {c : Char} (h : plainQuotes.lookup c = none) : plainQuote c = c := by
  rw [plainQuote, h, Option.getD_none]

theorem mem_quotes_of_lookup {c q : Char} (h : plainQuotes.lookup c = some q) : q ∈ quotes := by
  obtain ⟨before, after, heq, -⟩ := List.lookup_eq_some_iff.mp h
  have hmem : (c, q) ∈ plainQuotes := by
    rw [heq]
    simp
  have hquotes : ∀ p ∈ plainQuotes, p.2 ∈ quotes := by decide
  exact hquotes _ hmem

/-- No character becomes a typographic quote. -/
theorem lookup_plainQuote (c : Char) : plainQuotes.lookup (plainQuote c) = none := by
  have hplain : ∀ q ∈ quotes, plainQuotes.lookup q = none := by decide
  cases h : plainQuotes.lookup c with
  | none => rw [plainQuote_of_lookup h, h]
  | some q =>
    rw [plainQuote, h]
    exact hplain q (mem_quotes_of_lookup h)

theorem recast_map_plainQuote (text : List Char) : Recast quotes text (text.map plainQuote) := by
  induction text with
  | nil => exact .nil
  | cons c rest ih =>
    rw [List.map_cons]
    cases h : plainQuotes.lookup c with
    | none =>
      rw [plainQuote_of_lookup h]
      exact .keep c ih
    | some q =>
      rw [plainQuote, h]
      exact .make (mem_quotes_of_lookup h) [c] ih

/-- The replacements bring in plus signs, quotes and spaces only. -/
theorem recast_replaced (text : List Char) : Recast madeChars text (replaced text) := by
  have hne : ['?', '?'] ≠ [] := List.cons_ne_nil _ _
  have hlost : Recast madeChars text (replaceParts ['?', '?'] ['+'] text) :=
    (recast_replaceParts hne '+' text).mono (by decide)
  rw [replaced_eq]
  exact (hlost.trans ((recast_map_plainQuote _).mono (by decide))).trans
    ((recast_spaced _).mono (by decide))

/-- So does the normal form. -/
theorem recast_normalised (text : List Char) : Recast madeChars text (normalised text) := by
  rw [normalised_eq_replaced]
  exact ((recast_scanned category text).mono (by decide)).trans (recast_replaced _)

/-- No double question mark is left where each of them was replaced. -/
theorem not_lost_infix (text : List Char) :
    ¬ ['?', '?'] <:+: replaceParts ['?', '?'] ['+'] text := by
  have hne : ['?', '?'] ≠ [] := List.cons_ne_nil _ _
  induction text using replacing_induction hne with
  | nil => simp
  | passed rest ih =>
    rw [replaceParts_part_append hne, List.singleton_append, List.infix_cons_iff, not_or]
    exact ⟨fun h => absurd (List.cons_prefix_cons.mp h).1 (by decide), ih⟩
  | kept c rest hstarts ih =>
    rw [replaceParts_cons hstarts, List.infix_cons_iff, not_or]
    refine ⟨fun h => hstarts ?_, ih⟩
    -- a question mark that is left at the beginning was there in the text
    rw [List.cons_prefix_cons] at h ⊢
    exact ⟨h.1, (recast_replaceParts hne '+' rest).prefix_of (by decide) h.2⟩

/-- Nothing that is replaced is left in the normal form. -/
theorem not_infix_normalised {part new : String} (h : (part, new) ∈ replacements)
    (text : List Char) : ¬ part.toList <:+: normalised text := by
  have hspaced : ∀ p : List Char, ' ' ∉ p → p <:+: normalised text →
      p <:+: (replaceParts ['?', '?'] ['+'] (scanned category text)).map plainQuote := by
    intro p hp hwithin
    rw [normalised_eq] at hwithin
    refine (recast_spaced _).infix_of (fun c hc hmem => ?_) hwithin
    rw [List.mem_singleton] at hmem
    exact hp (hmem ▸ hc)
  have hquote : ∀ c, c ≠ ' ' → plainQuotes.lookup c ≠ none → ¬ [c] <:+: normalised text := by
    intro c hspace hlookup hwithin
    have hmem := (hspaced [c] (by simpa using hspace.symm) hwithin).subset List.mem_cons_self
    obtain ⟨d, -, rfl⟩ := List.mem_map.mp hmem
    exact hlookup (lookup_plainQuote d)
  have hedge : ∀ e ∈ edges, ¬ e <:+: normalised text := by
    intro e he
    rw [normalised_eq]
    exact not_infix_spaced isEdge_of_mem_edges he _
  simp only [replacements, lostPictograph, List.mem_cons, Prod.mk.injEq, List.not_mem_nil,
    or_false] at h
  rcases h with ⟨rfl, -⟩ | ⟨rfl, -⟩ | ⟨rfl, -⟩ | ⟨rfl, -⟩ | ⟨rfl, -⟩ | ⟨rfl, -⟩ | ⟨rfl, -⟩ | ⟨rfl, -⟩ |
    ⟨rfl, -⟩ | ⟨rfl, -⟩ | ⟨rfl, -⟩
  all_goals simp only [String.reduceToList]
  · intro hwithin
    exact not_lost_infix _ ((recast_map_plainQuote _).infix_of (by decide)
      (hspaced _ (by decide) hwithin))
  all_goals first | exact hquote _ (by decide) (by decide) | exact hedge _ (by decide)

/-! ## Once and for all -/

def zeroWidthJoiner : Char := Char.ofNat 0x200D

theorem eq_zeroWidthJoiner {c : Char} (h : c.toNat = 0x200D) : c = zeroWidthJoiner := by
  rw [← Char.ofNat_toNat c, h]
  rfl

/-- No pictograph is to be found in the normal form of a text without joiners. -/
theorem scanned_normalised (h : zeroWidthJoiner ∉ text) :
    scanned category (normalised text) = normalised text := by
  have hmade : ∀ c ∈ madeChars, c.toNat < 0x80 := by decide
  have halone : ∀ c ∈ normalised text, standsAlone category c = false := by
    intro c hc
    rw [normalised_eq_replaced] at hc
    rcases (recast_replaced _).mem hc with hc | hc
    · exact standsAlone_of_mem_scanned hc
    · exact standsAlone_of_ascii (hmade c hc)
  refine scanned_eq_self halone (fun c hc => ?_) fun key mark hkey hmark hwithin => ?_
  · rw [Bool.eq_false_iff]
    intro hjoiner
    have hcases : c.toNat = 0x200D ∨ standsAlone category c = true := isJoiner_cases hjoiner
    rcases hcases with hzero | hstands
    · rcases (recast_normalised text).mem hc with hc | hc
      · exact h (eq_zeroWidthJoiner hzero ▸ hc)
      · have hascii := hmade c hc
        omega
    · rw [halone c hc] at hstands
      cases hstands
  · -- neither a key nor the mark is made, so the two stood together after the scan
    have hnew : ∀ c ∈ [key, mark], c ∉ madeChars := by
      have hkeys : ∀ c ∈ madeChars, isKey c = false := by decide
      intro c hc hmem
      rcases List.mem_cons.mp hc with rfl | hc
      · rw [hkeys c hmem] at hkey
        cases hkey
      · rw [List.mem_singleton] at hc
        have hascii := hmade c hmem
        rw [hc] at hascii
        omega
    rw [normalised_eq_replaced] at hwithin
    exact not_keyCap_infix_scanned hkey hmark ((recast_replaced _).infix_of hnew hwithin)

theorem normalised_normalised (h : zeroWidthJoiner ∉ text) :
    normalised (normalised text) = normalised text := by
  have hlost : replaceParts ['?', '?'] ['+'] (normalised text) = normalised text := by
    have hmem : (lostPictograph, "+") ∈ replacements := List.mem_cons_self
    have hnot := not_infix_normalised hmem text
    simp only [lostPictograph, String.reduceToList] at hnot
    exact replaceParts_of_not_infix hnot ['+']
  have hquote : (normalised text).map plainQuote = normalised text := by
    rw [List.map_congr_left (g := id), List.map_id]
    intro c hc
    rw [normalised_eq] at hc
    rcases (recast_spaced _).mem hc with hc | hc
    · obtain ⟨d, -, rfl⟩ := List.mem_map.mp hc
      exact plainQuote_of_lookup (lookup_plainQuote d)
    · obtain rfl := List.mem_singleton.mp hc
      decide
  have hspace : spaced edges (normalised text) = normalised text := by
    refine spaced_eq_self fun e he => ?_
    rw [normalised_eq]
    exact not_infix_spaced isEdge_of_mem_edges he _
  rw [normalised_eq (normalised text), scanned_normalised h, hlost, hquote, hspace]

/-- **The normal form is normal.** No part that is replaced is left in it, so that replacing double
question marks once more, by whatever text, changes nothing. For a text without zero-width joiners
the normal form of the normal form is the normal form itself. -/
theorem normalised_is_normal (text : List Char) :
    (∀ r ∈ replacements, Text.has r.1 (String.ofList (normalised text)) = false) ∧
    (∀ new, replace lostPictograph new (String.ofList (normalised text)) =
      String.ofList (normalised text)) ∧
    (zeroWidthJoiner ∉ text → normalised (normalised text) = normalised text) := by
  have hnot : ∀ r ∈ replacements, ¬ r.1.toList <:+: normalised text :=
    fun r hr => not_infix_normalised hr text
  refine ⟨fun r hr => ?_, fun new => ?_, normalised_normalised⟩
  · rw [Text.has, String.toList_ofList, Bool.eq_false_iff, ne_eq, hasPart_iff]
    exact hnot r hr
  · rw [replace, String.toList_ofList, replaceParts_of_not_infix (hnot _ List.mem_cons_self)]

/-- A text with a typographic quote at the end of a tag, three question marks, a key cap, and a
pictograph with a variation selector before a quote and a semicolon. -/
def markedText : List Char :=
  ['“', 'a', '”', '/', '>', '?', '?', '?', '1', Char.ofNat 0x20E3, Char.ofNat 0x1F600,
   Char.ofNat 0xFE0F, '’', ';']

theorem markedText_normal :
    zeroWidthJoiner ∉ markedText ∧
    normalised markedText = "\"a\" />+?++' ;".toList ∧
    normalised (normalised markedText) = normalised markedText :=
  ⟨by decide, by decide +kernel, (normalised_is_normal markedText).2.2 (by decide)⟩

-- Of ten joiners in a row the last one is left, and a second run takes it for a part of the plus.
example : normalised (normalised ('a' :: List.replicate 10 zeroWidthJoiner)) ≠
    normalised ('a' :: List.replicate 10 zeroWidthJoiner) := by decide +kernel

end DesignAudit.Normal
