import DesignAudit.Proofs.Normal.Form

/-!
# Where a text can be divided

The normal form of a text is made of the normal forms of its parts wherever no pass looks across the
cut. This is so before an ASCII character that ends no edge and makes no double question mark
(`normalised_append`), and behind one that begins nothing, if no joiner follows
(`normalised_append_of_getLast`). Parts of ASCII text are mostly in their normal form already
(`normalised_of_ascii`).
-/

namespace DesignAudit.Normal

open Text

variable {u v text : List Char}

theorem plainQuote_of_ascii {c : Char} (h : c.toNat < 0x80) : plainQuote c = c := by
  refine plainQuote_of_lookup (List.lookup_eq_none_iff.mpr fun p hp => ?_)
  have hkeys : ∀ p ∈ plainQuotes, 0x80 ≤ p.1.toNat := by decide
  have hkey := hkeys p hp
  rw [bne_iff_ne]
  rintro rfl
  omega

/-- A text of ASCII characters is in its normal form if nothing in it is replaced. -/
theorem normalised_of_ascii (hascii : ∀ c ∈ text, c.toNat < 0x80) (hlost : ¬ ['?', '?'] <:+: text)
    (hedges : ∀ e ∈ edges, ¬ e <:+: text) : normalised text = text := by
  have hscanned : scanned category text = text := by
    refine scanned_eq_self (fun c hc => standsAlone_of_ascii (hascii c hc))
      (fun c hc => isJoiner_of_ascii (hascii c hc)) fun key mark _ hmark hwithin => ?_
    have hmem := hascii mark (hwithin.subset (by simp))
    omega
  have hquote : text.map plainQuote = text :=
    (List.map_congr_left fun c hc => plainQuote_of_ascii (hascii c hc)).trans (List.map_id _)
  rw [normalised_eq, hscanned, replaceParts_of_not_infix hlost, hquote, spaced_eq_self hedges]

/-- An ASCII text without quotes, and without two question marks in a row, is in its normal form. -/
theorem normalised_of_plain (h : ∀ c ∈ text, c.toNat < 0x80 ∧ c ∉ quotes)
    (hlost : ¬ ['?', '?'] <:+: text) : normalised text = text := by
  refine normalised_of_ascii (fun c hc => (h c hc).1) hlost fun e he hwithin => ?_
  obtain ⟨q, hq, s, rfl⟩ := (isEdge_of_mem_edges e he).exists_eq
  exact (h q (hwithin.subset List.mem_cons_self)).2 hq

/-- Spaces can be put in two halves of a text if no part stands on both sides of the cut. -/
theorem spaced_append {parts : List (List Char)}
    (h : ∀ part ∈ parts, (∀ c ∈ v.head?, c ∉ part.tail) ∨ ∀ c ∈ u.getLast?, c ∉ part.dropLast) :
    spaced parts (u ++ v) = spaced parts u ++ spaced parts v := by
  induction u with
  | nil => rfl
  | cons c rest ih =>
    have hsame : parts.any (·.isPrefixOf (c :: (rest ++ v))) =
        parts.any (·.isPrefixOf (c :: rest)) := by
      rw [Bool.eq_iff_iff, List.any_eq_true, List.any_eq_true]
      refine exists_congr fun part => and_congr_right fun hmem => ?_
      rw [List.isPrefixOf_iff_prefix, List.isPrefixOf_iff_prefix, ← List.cons_append,
        prefix_append_iff (List.cons_ne_nil c rest) (h part hmem)]
    have hrest : ∀ d ∈ rest.getLast?, d ∈ (c :: rest).getLast? := by
      intro d hd
      rw [List.getLast?_cons, Option.mem_def.mp hd, Option.getD_some]
      rfl
    rw [List.cons_append, spaced, spaced, hsame,
      ih fun part hmem => (h part hmem).imp_right fun hlast d hd => hlast d (hrest d hd)]
    split
    · rfl
    · rfl

/-- A text can be divided before an ASCII character that ends no edge, unless the cut goes through a
double question mark. -/
theorem normalised_append (hv : ∀ b ∈ v.head?, b.toNat < 0x80 ∧ b ∉ ['/', '>', ';'])
    (hlost : v.head? = some '?' → u.getLast? ≠ some '?') :
    normalised (u ++ v) = normalised u ++ normalised v := by
  have hne : ['?', '?'] ≠ [] := List.cons_ne_nil _ _
  have hcut : (∀ c ∈ (scanned category v).head?, c ∉ ['?', '?'].tail) ∨
      ∀ c ∈ (scanned category u).getLast?, c ∉ ['?', '?'].dropLast := by
    by_cases hmark : v.head? = some '?'
    · right
      rintro c hc hmem
      obtain rfl := List.mem_singleton.mp hmem
      rcases (recast_scanned category u).getLast? hc with hplus | hlast
      · revert hplus
        decide
      · exact hlost hmark hlast
    · left
      rintro c hc hmem
      obtain rfl := List.mem_singleton.mp hmem
      rcases (recast_scanned category v).head? hc with hplus | hhead
      · revert hplus
        decide
      · exact hmark hhead
  rw [normalised_eq, normalised_eq u, normalised_eq v, scanned_append fun b hb => (hv b hb).1,
    replaceParts_append hne hcut, List.map_append]
  refine spaced_append fun part hpart => .inl fun c hc => ?_
  -- what stands behind the cut in the last pass is a plus sign or the character itself
  rw [List.head?_map] at hc
  obtain ⟨x, hx, rfl⟩ := Option.map_eq_some_iff.mp hc
  have htails : ∀ part ∈ edges, ∀ c ∈ part.tail, c ∈ ['/', '>', ';'] := by decide
  rcases ((recast_scanned category v).trans (recast_replaceParts hne '+' _)).head? hx with
    hplus | hhead
  · obtain rfl := List.mem_singleton.mp hplus
    exact fun hmem => absurd (htails part hpart _ hmem) (by decide)
  · obtain ⟨hascii, hend⟩ := hv x hhead
    rw [plainQuote_of_ascii hascii]
    exact fun hmem => hend (htails part hpart x hmem)

/-- A text can be divided behind an ASCII character that begins neither a key nor an edge nor a
double question mark, if no joiner follows. -/
theorem normalised_append_of_getLast {m : Char} (hu : u.getLast? = some m) (hascii : m.toNat < 0x80)
    (hkey : isKey m = false) (hm : m ∉ ['?', '"', '\'', '/'])
    (hv : ∀ b ∈ v.head?, isJoiner b = false) :
    normalised (u ++ v) = normalised u ++ normalised v := by
  have hne : ['?', '?'] ≠ [] := List.cons_ne_nil _ _
  obtain ⟨s, rfl⟩ := List.getLast?_eq_some_iff.mp hu
  have hquestion : m ∉ ['?'] := fun h => hm (List.mem_singleton.mp h ▸ List.mem_cons_self)
  have hscanned : ∀ {w : List Char}, (∀ b ∈ w.head?, isJoiner b = false) →
      scanned category (s ++ m :: w) = scanned category s ++ m :: scanned category w := by
    intro w hw
    rw [scanned_append (fun b hb => ?_), scanned_cons_of_ascii hascii hkey hw]
    obtain rfl := Option.some.inj hb
    exact hascii
  -- the character stays the last one of the first half in every pass
  have hlost : replaceParts ['?', '?'] ['+'] (scanned category s ++ [m]) =
      replaceParts ['?', '?'] ['+'] (scanned category s) ++ [m] := by
    have hkept : ¬ ['?', '?'] <+: [m] := fun h => hquestion (by
      rw [List.cons_prefix_cons] at h
      exact List.mem_singleton.mpr h.1.symm)
    rw [replaceParts_append hne (.inl fun c hc => ?_), replaceParts_cons hkept, replaceParts_nil]
    obtain rfl := Option.some.inj hc
    exact hquestion
  have hcut : ∀ c ∈ (scanned category s ++ [m]).getLast?, c ∉ ['?', '?'].dropLast := by
    intro c hc
    rw [List.getLast?_concat] at hc
    obtain rfl := Option.some.inj hc
    exact hquestion
  rw [normalised_eq, normalised_eq (s ++ [m]), normalised_eq v, List.append_assoc,
    List.singleton_append, hscanned hv, hscanned (fun b hb => by cases hb), scanned_nil,
    List.append_cons, replaceParts_append hne (.inr hcut), hlost, List.map_append, List.map_append,
    List.map_singleton, plainQuote_of_ascii hascii]
  refine spaced_append fun part hpart => .inr fun c hc => ?_
  rw [List.getLast?_concat] at hc
  obtain rfl := Option.some.inj hc
  have hbegins : ∀ part ∈ edges, ∀ c ∈ part.dropLast, c ∈ ['?', '"', '\'', '/'] := by decide
  exact fun hmem => hm (hbegins part hpart _ hmem)

end DesignAudit.Normal
