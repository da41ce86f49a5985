import DesignAudit.Proofs.Text.Search

/-!
# Replacing parts of a text

A replacement goes through a text from left to right. Where the part begins it writes the new text
and goes on behind the part (`replaceParts_part_append`), elsewhere it keeps a character
(`replaceParts_cons`). `replacing_induction` follows these two cases, so that no proof needs the
text written so far.

What a pass over a text may do in general is `Recast`: it keeps characters, and puts characters of
its own in the place of others or between them. A part of the result that has none of its own
characters was a part of the text before.
-/

namespace DesignAudit.Text

variable {part new text : List Char}

/-! ## Equations -/

theorem replaceFrom_eq (part new : List Char) (skip : Nat) (done text : List Char) :
    replaceFrom part new skip done text =
      done.reverse ++ replaceParts part new (text.drop skip) := by
  induction text generalizing skip done with
  | nil => cases skip <;> simp [replaceFrom, replaceParts]
  | cons c rest ih =>
    cases skip with
    | succ skip =>
      rw [replaceFrom, ih, List.drop_succ_cons]
    | zero =>
      rw [List.drop_zero, replaceParts, replaceFrom, replaceFrom]
      split
      · rw [ih, ih (part.length - 1) (new.reverse ++ [])]
        simp
      · rw [ih, ih 0 [c]]
        simp

@[simp]
theorem replaceParts_nil (part new : List Char) : replaceParts part new [] = [] := rfl

/-- Where the part begins, the new text is written and the part is passed. -/
theorem replaceParts_part_append (hpart : part ≠ []) (new rest : List Char) :
    replaceParts part new (part ++ rest) = new ++ replaceParts part new rest := by
  obtain ⟨c, s, rfl⟩ := List.exists_cons_of_ne_nil hpart
  have hstarts : (c :: s).isPrefixOf (c :: (s ++ rest)) = true := by
    rw [List.isPrefixOf_iff_prefix]
    exact List.prefix_append (c :: s) rest
  rw [List.cons_append, replaceParts, replaceFrom, if_pos hstarts, replaceFrom_eq]
  simp

/-- Where the part does not begin, a character is kept. -/
theorem replaceParts_cons {c : Char} {rest : List Char} (h : ¬ part <+: c :: rest)
    (new : List Char) : replaceParts part new (c :: rest) = c :: replaceParts part new rest := by
  have hstarts : ¬ part.isPrefixOf (c :: rest) = true := by
    rwa [List.isPrefixOf_iff_prefix]
  rw [replaceParts, replaceFrom, if_neg hstarts, replaceFrom_eq]
  rfl

/-- What holds of the empty text, and of a text that begins with the part or with another character
if it holds of what follows, holds of every text. -/
theorem replacing_induction {motive : List Char → Prop} (hpart : part ≠ []) (nil : motive [])
    (passed : ∀ rest, motive rest → motive (part ++ rest))
    (kept : ∀ c rest, ¬ part <+: c :: rest → motive rest → motive (c :: rest))
    (text : List Char) : motive text := by
  induction hlength : text.length using Nat.strongRecOn generalizing text with
  | ind n ih =>
    cases text with
    | nil => exact nil
    | cons c rest =>
      by_cases hstarts : part <+: c :: rest
      · obtain ⟨after, hafter⟩ := hstarts
        rw [← hafter]
        refine passed after (ih after.length ?_ after rfl)
        have hpos : 0 < part.length := List.length_pos_iff.mpr hpart
        rw [← hlength, ← hafter, List.length_append]
        omega
      · exact kept c rest hstarts (ih rest.length (by rw [← hlength]; simp) rest rfl)

/-- A text without the part is left as it is. -/
theorem replaceParts_of_not_infix (h : ¬ part <:+: text) (new : List Char) :
    replaceParts part new text = text := by
  induction text with
  | nil => rfl
  | cons c rest ih =>
    rw [List.infix_cons_iff, not_or] at h
    rw [replaceParts_cons h.1, ih h.2]

/-- Replacing a character by another one changes each character on its own. -/
theorem replaceParts_singleton (c d : Char) (text : List Char) :
    replaceParts [c] [d] text = text.map fun x => if x = c then d else x := by
  induction text with
  | nil => rfl
  | cons x rest ih =>
    rw [List.map_cons, ← ih]
    split
    · rename_i heq
      rw [heq]
      exact replaceParts_part_append (List.cons_ne_nil c []) [d] rest
    · rename_i hne
      refine replaceParts_cons (fun h => ?_) [d]
      rw [List.cons_prefix_cons] at h
      exact hne h.1.symm

/-- Several characters replaced one after the other, none of which is put in by a replacement. -/
theorem foldl_replaceParts_singleton {pairs : List (Char × Char)}
    (hpairs : ∀ p ∈ pairs, pairs.lookup p.2 = none) (text : List Char) :
    pairs.foldl (fun t p => replaceParts [p.1] [p.2] t) text =
      text.map fun c => (pairs.lookup c).getD c := by
  induction pairs generalizing text with
  | nil => simp
  | cons p pairs ih =>
    have hnone : ∀ c, (p :: pairs).lookup c = none → pairs.lookup c = none := by
      intro c hc
      rw [List.lookup_cons] at hc
      split at hc
      · cases hc
      · exact hc
    rw [List.foldl_cons, replaceParts_singleton,
      ih fun q hq => hnone q.2 (hpairs q (List.mem_cons_of_mem p hq)), List.map_map]
    refine List.map_congr_left fun c _ => ?_
    rw [Function.comp_apply, List.lookup_cons]
    by_cases hc : c = p.1
    · rw [if_pos hc, hnone p.2 (hpairs p List.mem_cons_self), hc]
      simp
    · have hbeq : (c == p.1) = false := by simpa using hc
      rw [if_neg hc, hbeq]

/-! ## Where a text can be divided -/

/-- A part that begins in a text and ends in what follows it has the first character of what follows
behind its own first one, and the last character of the text before its own last one. -/
theorem prefix_append_iff {u v : List Char} (hu : u ≠ [])
    (h : (∀ c ∈ v.head?, c ∉ part.tail) ∨ ∀ c ∈ u.getLast?, c ∉ part.dropLast) :
    part <+: u ++ v ↔ part <+: u := by
  refine ⟨fun hpart => ?_, fun hpart => hpart.trans (List.prefix_append u v)⟩
  rcases List.prefix_or_prefix_of_prefix hpart (List.prefix_append u v) with hle | ⟨s, rfl⟩
  · exact hle
  rw [List.prefix_append_right_inj] at hpart
  cases s with
  | nil => rw [List.append_nil]
  | cons x s =>
    exfalso
    rcases h with h | h
    · obtain ⟨after, rfl⟩ := hpart
      refine h x (by simp) ?_
      rw [List.tail_append_of_ne_nil hu]
      simp
    · obtain ⟨before, last, rfl⟩ := List.eq_nil_or_concat u |>.resolve_left hu
      refine h last (by simp) ?_
      rw [List.dropLast_append_of_ne_nil (by simp)]
      simp

/-- A replacement can be made in two halves of a text if the part cannot stand on both sides of the
cut. -/
theorem replaceParts_append {u v : List Char} (hpart : part ≠ [])
    (h : (∀ c ∈ v.head?, c ∉ part.tail) ∨ ∀ c ∈ u.getLast?, c ∉ part.dropLast) (new : List Char) :
    replaceParts part new (u ++ v) = replaceParts part new u ++ replaceParts part new v := by
  induction u using replacing_induction hpart with
  | nil => rfl
  | passed rest ih =>
    rw [List.append_assoc, replaceParts_part_append hpart, replaceParts_part_append hpart,
      List.append_assoc, ih]
    refine h.imp_right fun h c hc => h c ?_
    rw [List.getLast?_append, Option.mem_def.mp hc, Option.some_or]
    rfl
  | kept c rest hstarts ih =>
    have hkept : ¬ part <+: c :: (rest ++ v) := by
      rwa [← List.cons_append, prefix_append_iff (List.cons_ne_nil c rest) h]
    rw [List.cons_append, replaceParts_cons hkept, replaceParts_cons hstarts, List.cons_append, ih]
    refine h.imp_right fun h d hd => h d ?_
    cases rest with
    | nil => cases hd
    | cons x rest => exact hd

/-! ## Characters that a pass makes -/

/-- A text is recast: characters are kept, and characters of `made` stand in the place of others or
between them. -/
inductive Recast (made : List Char) : List Char → List Char → Prop where
  | nil : Recast made [] []
  | keep (c : Char) {t t' : List Char} : Recast made t t' → Recast made (c :: t) (c :: t')
  | make {c : Char} (hc : c ∈ made) (dropped : List Char) {t t' : List Char} :
      Recast made t t' → Recast made (dropped ++ t) (c :: t')

namespace Recast

variable {made other t t' t'' p : List Char}

theorem mem (h : Recast made t t') {c : Char} (hc : c ∈ t') : c ∈ t ∨ c ∈ made := by
  induction h with
  | nil => cases hc
  | keep d _ ih =>
    rcases List.mem_cons.mp hc with rfl | hc
    · exact .inl List.mem_cons_self
    · exact (ih hc).imp_left (List.mem_cons_of_mem d)
  | make hd dropped _ ih =>
    rcases List.mem_cons.mp hc with rfl | hc
    · exact .inr hd
    · exact (ih hc).imp_left (List.mem_append_right dropped)

theorem head? (h : Recast made t t') {c : Char} (hc : t'.head? = some c) :
    c ∈ made ∨ t.head? = some c := by
  cases h with
  | nil => cases hc
  | keep d _ => exact .inr hc
  | make hd dropped _ => exact .inl (Option.some.inj hc ▸ hd)

theorem getLast? (h : Recast made t t') {c : Char} (hc : t'.getLast? = some c) :
    c ∈ made ∨ t.getLast? = some c := by
  induction h with
  | nil => cases hc
  | keep d h ih =>
    rename_i t t'
    cases t' with
    | nil =>
      cases h
      exact .inr hc
    | cons x t' =>
      rw [List.getLast?_cons_cons] at hc
      refine (ih hc).imp_right fun hlast => ?_
      rw [List.getLast?_cons, hlast, Option.getD_some]
  | make hd dropped h ih =>
    rename_i x t t'
    cases t' with
    | nil => exact .inl (Option.some.inj hc ▸ hd)
    | cons y t' =>
      rw [List.getLast?_cons_cons] at hc
      refine (ih hc).imp_right fun hlast => ?_
      rw [List.getLast?_append, hlast, Option.some_or]

theorem prefix_of (h : Recast made t t') (hp : ∀ c ∈ p, c ∉ made) (hbegin : p <+: t') :
    p <+: t := by
  induction h generalizing p with
  | nil => exact hbegin
  | keep d _ ih =>
    cases p with
    | nil => exact List.nil_prefix
    | cons x p =>
      rw [List.cons_prefix_cons] at hbegin ⊢
      exact ⟨hbegin.1, ih (fun c hc => hp c (List.mem_cons_of_mem x hc)) hbegin.2⟩
  | make hd dropped _ ih =>
    cases p with
    | nil => exact List.nil_prefix
    | cons x p =>
      rw [List.cons_prefix_cons] at hbegin
      exact absurd (hbegin.1 ▸ hd) (hp x List.mem_cons_self)

/-- What has none of the new characters was there before, in one piece. -/
theorem infix_of (h : Recast made t t') (hp : ∀ c ∈ p, c ∉ made) (hwithin : p <:+: t') :
    p <:+: t := by
  induction h with
  | nil => exact hwithin
  | keep d h ih =>
    rcases List.infix_cons_iff.mp hwithin with hbegin | hwithin
    · exact ((Recast.keep d h).prefix_of hp hbegin).isInfix
    · exact (ih hwithin).trans (List.suffix_cons d _).isInfix
  | make hd dropped h ih =>
    rcases List.infix_cons_iff.mp hwithin with hbegin | hwithin
    · exact ((Recast.make hd dropped h).prefix_of hp hbegin).isInfix
    · exact (ih hwithin).trans (List.suffix_append dropped _).isInfix

theorem mono (h : Recast made t t') (hmade : made ⊆ other) : Recast other t t' := by
  induction h with
  | nil => exact .nil
  | keep d _ ih => exact .keep d ih
  | make hd dropped _ ih => exact .make (hmade hd) dropped ih

/-- What becomes a text in two parts is in two parts itself, as far as the second one is
concerned. -/
theorem behind {a b : List Char} (h : Recast made t (a ++ b)) :
    ∃ before after, t = before ++ after ∧ Recast made after b := by
  induction a generalizing t with
  | nil => exact ⟨[], t, rfl, h⟩
  | cons x a ih =>
    rcases h with _ | ⟨_, h⟩ | ⟨_, dropped, h⟩
    · obtain ⟨before, after, rfl, hafter⟩ := ih h
      exact ⟨x :: before, after, rfl, hafter⟩
    · obtain ⟨before, after, rfl, hafter⟩ := ih h
      exact ⟨dropped ++ before, after, (List.append_assoc _ _ _).symm, hafter⟩

theorem trans (h : Recast made t t') (h' : Recast made t' t'') : Recast made t t'' := by
  induction h' generalizing t with
  | nil => exact h
  | keep c _ ih =>
    rcases h with _ | ⟨_, h⟩ | ⟨hc, dropped, h⟩
    · exact .keep c (ih h)
    · exact .make hc dropped (ih h)
  | make hc dropped _ ih =>
    obtain ⟨before, after, rfl, hafter⟩ := h.behind
    exact .make hc before (ih hafter)

end Recast

/-- A replacement by one character makes this character only. -/
theorem recast_replaceParts (hpart : part ≠ []) (c : Char) (text : List Char) :
    Recast [c] text (replaceParts part [c] text) := by
  induction text using replacing_induction hpart with
  | nil => exact .nil
  | passed rest ih =>
    rw [replaceParts_part_append hpart]
    exact .make List.mem_cons_self part ih
  | kept d rest hstarts ih =>
    rw [replaceParts_cons hstarts]
    exact .keep d ih

end DesignAudit.Text
