import DesignAudit.Proofs.Normal.Remainder

/-!
# Which named characters are left

Some characters are named as pictographs one by one: the zero-width joiner, the variation selector,
and a list of signs. Where the scan looks at one of them matters, because it looks at the head of a
sequence only. `Reaches` says which places the scan comes to.

Four of the listed signs are symbols outside of all ranges, so that the list, which counts only where
the category does not decide, is never asked about them. They are left wherever no joiner follows
(`mem_scanned_iff_of_untouched`). The zero-width joiner is left where the scan comes to it as a head:
at the beginning of the text, and behind a sequence that was cut (`reaches_joiner_iff`).
`named_characters_left` puts this together.
-/

namespace DesignAudit.Normal

open Text

variable {category : Char → Category} {c d : Char} {rest text : List Char}

/-! ## The places that the scan comes to -/

/-- The scan of a text comes to a place, given by the text to come: it looks there for the next
pictograph. -/
inductive Reaches (category : Char → Category) (text : List Char) : List Char → Prop where
  | start : Reaches category text text
  | kept {c : Char} {rest : List Char} (before : Reaches category text (c :: rest))
      (length : pictographLength category c rest = 0) : Reaches category text rest
  | found {c : Char} {rest : List Char} {n : Nat} (before : Reaches category text (c :: rest))
      (length : pictographLength category c rest = n + 1) : Reaches category text (rest.drop n)

namespace Reaches

variable {middle place : List Char}

theorem trans (hmiddle : Reaches category text middle) (hplace : Reaches category middle place) :
    Reaches category text place := by
  induction hplace with
  | start => exact hmiddle
  | kept _ length ih => exact .kept ih length
  | found _ length ih => exact .found ih length

theorem suffix (h : Reaches category text place) : place <:+ text := by
  induction h with
  | start => exact List.suffix_rfl
  | kept _ _ ih => exact (List.suffix_cons _ _).trans ih
  | found _ _ ih => exact ((List.drop_suffix _ _).trans (List.suffix_cons _ _)).trans ih

end Reaches

/-- What the scan leaves of a text are plus signs and the characters at which it comes to no
pictograph. -/
theorem mem_scanned_iff (hplus : d ≠ '+') :
    d ∈ scanned category text ↔
      ∃ rest, Reaches category text (d :: rest) ∧ pictographLength category d rest = 0 := by
  constructor
  · intro h
    induction text using scanning_induction category with
    | nil => cases h
    | kept c rest hzero ih =>
      rw [scanned_kept hzero] at h
      rcases List.mem_cons.mp h with rfl | h
      · exact ⟨rest, .start, hzero⟩
      · obtain ⟨after, hreaches, hlength⟩ := ih h
        exact ⟨after, (Reaches.start.kept hzero).trans hreaches, hlength⟩
    | found c rest n hfound ih =>
      rw [scanned_found hfound] at h
      obtain ⟨after, hreaches, hlength⟩ := ih ((List.mem_cons.mp h).resolve_left hplus)
      exact ⟨after, (Reaches.start.found hfound).trans hreaches, hlength⟩
  · rintro ⟨rest, hreaches, hzero⟩
    -- from the place backwards: what is left behind a place is left of the whole text
    have hleft : ∀ {place}, Reaches category text place → scanned category place ⊆
        scanned category text := by
      intro place h
      induction h with
      | start => exact List.Subset.refl _
      | kept _ length ih =>
        rw [scanned_kept length] at ih
        exact List.Subset.trans (List.subset_cons_self _ _) ih
      | found _ length ih =>
        rw [scanned_found length] at ih
        exact List.Subset.trans (List.subset_cons_self _ _) ih
    refine hleft hreaches ?_
    rw [scanned_kept hzero]
    exact List.mem_cons_self

/-! ## Signs that no sequence takes with it -/

/-- A character that is taken into no sequence, and makes no flag and no key. -/
def IsUntouched (d : Char) : Prop :=
  isJoiner d = false ∧ isPlaneOne d = false ∧ d.toNat ≠ 0x20E3 ∧ isKey d = false

instance (d : Char) : Decidable (IsUntouched d) := inferInstanceAs (Decidable (_ ∧ _))

theorem IsPictograph.not_mem_of_isUntouched {taken : List Char}
    (h : IsPictograph category c taken) (hd : IsUntouched d) : d ∉ taken := by
  obtain ⟨hjoiner, hplane, hmark, -⟩ := hd
  intro hmem
  cases h with
  | joined joins takes =>
    rcases List.mem_cons.mp hmem with rfl | hmem
    · simp [hjoiner] at joins
    · simpa [hjoiner, hplane] using takes d hmem
  | flag _ second =>
    obtain rfl := List.mem_singleton.mp hmem
    simp [isPlaneOne_of_isFlagLetter second] at hplane
  | keyCap _ caps =>
    obtain rfl := List.mem_singleton.mp hmem
    exact hmark caps
  | alone _ => cases hmem

/-- The scan comes to every character that no sequence takes with it. -/
theorem reaches_of_isUntouched (hd : IsUntouched d) (before rest : List Char) :
    Reaches category (before ++ d :: rest) (d :: rest) := by
  generalize htext : before ++ d :: rest = text
  induction text using scanning_induction category generalizing before with
  | nil => simp at htext
  | kept c more hzero ih =>
    cases before with
    | nil =>
      rw [List.nil_append] at htext
      rw [htext]
      exact .start
    | cons b before =>
      obtain ⟨rfl, hmore⟩ := List.cons.inj htext
      exact (Reaches.start.kept hzero).trans (ih before hmore)
  | found c more n hfound ih =>
    cases before with
    | nil =>
      rw [List.nil_append] at htext
      rw [htext]
      exact .start
    | cons b before =>
      obtain ⟨rfl, rfl⟩ : b = c ∧ before ++ d :: rest = more := List.cons.inj htext
      -- the sequence ends before the character
      have hn : n ≤ before.length := by
        by_contra hlong
        refine (isPictograph_take hfound).not_mem_of_isUntouched hd ?_
        rw [List.take_append, List.mem_append]
        refine .inr ?_
        obtain ⟨k, hk⟩ : ∃ k, n - before.length = k + 1 := ⟨n - before.length - 1, by omega⟩
        rw [hk, List.take_succ_cons]
        exact List.mem_cons_self
      refine (Reaches.start.found hfound).trans ?_
      exact ih (before.drop n) (List.drop_append_of_le_length hn).symm

/-- Where a character stands alone nowhere and makes no flag and no key, only a joiner behind it
makes it a pictograph. -/
theorem pictographLength_eq_zero_iff_of_plain (halone : standsAlone category d = false)
    (hplane : isPlaneOne d = false) (hkey : isKey d = false) :
    pictographLength category d rest = 0 ↔ ∀ next ∈ rest.head?, isJoiner next = false := by
  have hflag : isFlagLetter d = false := by
    rw [Bool.eq_false_iff]
    intro h
    rw [isPlaneOne_of_isFlagLetter h] at hplane
    cases hplane
  simp [pictographLength_eq_zero_iff, halone, hflag, hkey]

/-- A character that does not stand alone and that no sequence takes with it is left exactly if it
stands somewhere without a joiner behind it. -/
theorem mem_scanned_iff_of_untouched (hplus : d ≠ '+') (hd : IsUntouched d)
    (halone : standsAlone category d = false) :
    d ∈ scanned category text ↔
      ∃ before after, text = before ++ d :: after ∧
        ∀ next ∈ after.head?, isJoiner next = false := by
  have ⟨_, hplane, _, hkey⟩ := hd
  simp only [mem_scanned_iff hplus, pictographLength_eq_zero_iff_of_plain halone hplane hkey]
  constructor
  · rintro ⟨after, hreaches, hnext⟩
    obtain ⟨before, rfl⟩ := hreaches.suffix
    exact ⟨before, after, rfl, hnext⟩
  · rintro ⟨before, after, rfl, hnext⟩
    exact ⟨after, reaches_of_isUntouched hd before after, hnext⟩

/-! ## Sequences that are cut -/

/-- A sequence that ends although a joiner may follow: a flag, a key with its cap, or as many joined
characters as a sequence may have. -/
inductive IsCut : List Char → Prop where
  | flag {c next : Char} (first : isFlagLetter c = true) (second : isFlagLetter next = true) :
      IsCut [c, next]
  | keyCap {c mark : Char} (key : isKey c = true) (caps : mark.toNat = 0x20E3) : IsCut [c, mark]
  | full {c next : Char} {more : List Char} (joins : isJoiner next = true)
      (length : more.length = joinedLimit)
      (takes : ∀ d ∈ more, isJoiner d = true ∨ isPlaneOne d = true) : IsCut (c :: next :: more)

theorem isJoiner_of_isFlagLetter (h : isFlagLetter c = true) : isJoiner c = false := by
  simp only [isFlagLetter, Bool.and_eq_true, Nat.ble_eq] at h
  rw [Bool.eq_false_iff]
  simp only [isJoiner, ne_eq, Bool.or_eq_true, beq_iff_eq]
  omega

theorem isFlagLetter_of_isKey (h : isKey c = true) : isFlagLetter c = false := by
  rw [Bool.eq_false_iff]
  intro hflag
  simp only [isFlagLetter, Bool.and_eq_true, Nat.ble_eq] at hflag
  have hascii : c.toNat < 0x80 := by
    simp only [isKey, Bool.or_eq_true, beq_iff_eq, Char.isDigit, Bool.and_eq_true,
      decide_eq_true_eq] at h
    rcases h with (⟨-, h⟩ | rfl) | rfl
    · have : c.toNat ≤ 57 := by simpa using UInt32.le_iff_toNat_le.mp h
      omega
    · decide
    · decide
  omega

/-- A sequence that is cut is replaced as a whole, whatever follows. -/
theorem Reaches.of_isCut {block after : List Char} (hblock : IsCut block)
    (h : Reaches category text (block ++ after)) : Reaches category text after := by
  cases hblock with
  | @flag c next first second =>
    have hlength : pictographLength category c (next :: after) = 1 + 1 := by
      simp [pictographLength, isJoiner_of_isFlagLetter second, first, second]
    exact Reaches.found h hlength
  | @keyCap c mark key caps =>
    have hjoiner : isJoiner mark = false := by simp [isJoiner, caps]
    have hlength : pictographLength category c (mark :: after) = 1 + 1 := by
      simp [pictographLength, hjoiner, isFlagLetter_of_isKey key, key, caps]
    exact Reaches.found h hlength
  | @full c next more joins length takes =>
    have htakes : ∀ d ∈ more, (isJoiner d || isPlaneOne d) = true := fun d hd =>
      Bool.or_eq_true_iff.mpr (takes d hd)
    have htaken : ((more ++ after).take joinedLimit).takeWhile
        (fun d => isJoiner d || isPlaneOne d) = more := by
      rw [← length, List.take_left, List.takeWhile_eq_self_iff.mpr htakes]
    have hlength : pictographLength category c (next :: (more ++ after)) = more.length + 1 + 1 := by
      simp only [pictographLength, joins, if_true, htaken]
      omega
    have hreached : Reaches category text ((next :: (more ++ after)).drop (more.length + 1)) :=
      .found h hlength
    rwa [List.drop_succ_cons, List.drop_left] at hreached

/-- A run of characters of a class that ends before another one of the class ends at its limit. -/
theorem length_takeWhile_take {p : Char → Bool} {n : Nat} {more after : List Char}
    (hd : p d = true) (h : more.drop ((more.take n).takeWhile p).length = d :: after) :
    ((more.take n).takeWhile p).length = n := by
  induction n generalizing more with
  | zero => rfl
  | succ n ih =>
    cases more with
    | nil => simp at h
    | cons e more =>
      rw [List.take_succ_cons, List.takeWhile_cons] at h ⊢
      split at h
      · rename_i he
        rw [if_pos he, List.length_cons, ih h]
      · rename_i he
        obtain ⟨rfl, -⟩ := List.cons.inj h
        exact absurd hd he

/-- Joined characters that end before a joiner are as many as a sequence may have. -/
theorem exists_isCut_of_joined (c : Char) {next joiner : Char} {more after : List Char}
    (hjoins : isJoiner next = true) (hjoiner : isJoiner joiner = true)
    (h : more.drop ((more.take joinedLimit).takeWhile
      fun d => isJoiner d || isPlaneOne d).length = joiner :: after) :
    ∃ taken, IsCut (c :: next :: taken) ∧ more = taken ++ joiner :: after := by
  refine ⟨(more.take joinedLimit).takeWhile fun d => isJoiner d || isPlaneOne d,
    .full hjoins ?_ fun d hd => ?_, ?_⟩
  · exact length_takeWhile_take (by simp [hjoiner]) h
  · have hjoined := List.mem_takeWhile_imp hd
    rwa [Bool.or_eq_true] at hjoined
  · have hpre := (List.takeWhile_prefix (fun d => isJoiner d || isPlaneOne d)).trans
      (List.take_prefix joinedLimit more)
    rw [← h, List.prefix_iff_eq_append.mp hpre]

/-- The scan comes to a joiner only at the beginning of the text, or behind a sequence that was
cut. -/
theorem reaches_joiner_iff {joiner : Char} (hjoiner : isJoiner joiner = true) {after : List Char} :
    Reaches category text (joiner :: after) ↔
      text = joiner :: after ∨
        ∃ block, IsCut block ∧ Reaches category text (block ++ joiner :: after) := by
  constructor
  · intro h
    obtain ⟨place, hplace⟩ : ∃ place, place = joiner :: after := ⟨_, rfl⟩
    rw [← hplace] at h
    cases h with
    | start => exact .inl hplace
    | @kept c _ before length =>
      -- a character with a joiner behind it is never kept
      subst hplace
      have hnext := ((pictographLength_eq_zero_iff.mp length).2 joiner rfl).1
      rw [hjoiner] at hnext
      cases hnext
    | @found c rest n before length =>
      refine .inr ?_
      cases rest with
      | nil => simp at hplace
      | cons next more =>
        rw [pictographLength] at length
        split_ifs at length with hjoins hflags hkey halone
        · obtain rfl : n = ((more.take joinedLimit).takeWhile
              fun d => isJoiner d || isPlaneOne d).length + 1 := by omega
          rw [List.drop_succ_cons] at hplace
          obtain ⟨taken, hcut, rfl⟩ := exists_isCut_of_joined c hjoins hjoiner hplace
          exact ⟨c :: next :: taken, hcut, before⟩
        · obtain rfl : n = 1 := by omega
          rw [Bool.and_eq_true] at hflags
          rw [List.drop_succ_cons, List.drop_zero] at hplace
          exact ⟨[c, next], .flag hflags.1 hflags.2, hplace ▸ before⟩
        · obtain rfl : n = 1 := by omega
          rw [Bool.and_eq_true, beq_iff_eq] at hkey
          rw [List.drop_succ_cons, List.drop_zero] at hplace
          exact ⟨[c, next], .keyCap hkey.1 hkey.2, hplace ▸ before⟩
        · obtain rfl : n = 0 := by omega
          rw [List.drop_zero] at hplace
          obtain ⟨rfl, -⟩ := List.cons.inj hplace
          exact absurd hjoiner hjoins
  · rintro (rfl | ⟨block, hblock, h⟩)
    · exact .start
    · exact h.of_isCut hblock

/-! ## Named characters -/

/-- The characters that are named one by one: the zero-width joiner, the variation selector and the
listed pictographs. -/
def namedCharacters : List Char := '\u200D' :: '\uFE0F' :: listedPictographs

/-- The listed pictographs that are symbols outside of all ranges, so that the list is not asked. -/
def overlookedSigns : List Char := ['©', '®', '™', '℗']

/-- **Which named characters are left.** Of the characters that are named one by one only the
zero-width joiner and four signs can be left of a text. Each of the signs is left exactly if it stands
somewhere without a joiner behind it. The zero-width joiner is left exactly if the scan comes to one
that no joiner follows; and the scan comes to one exactly at the beginning of the text, and behind a
flag, a key with its cap or a sequence of ten characters. -/
theorem named_characters_left (text : List Char) :
    (∀ d ∈ namedCharacters, d ∈ withoutPictographs Text.category text →
      d ∈ '\u200D' :: overlookedSigns) ∧
    (∀ d ∈ overlookedSigns, d ∈ listedPictographs ∧
      (d ∈ withoutPictographs Text.category text ↔
        ∃ before after, text = before ++ d :: after ∧
          ∀ next ∈ after.head?, isJoiner next = false)) ∧
    ('\u200D' ∈ withoutPictographs Text.category text ↔
      ∃ after, Reaches Text.category text ('\u200D' :: after) ∧
        ∀ next ∈ after.head?, isJoiner next = false) ∧
    (∀ after, Reaches Text.category text ('\u200D' :: after) ↔
      text = '\u200D' :: after ∨
        ∃ block, IsCut block ∧ Reaches Text.category text (block ++ '\u200D' :: after)) := by
  rw [withoutPictographs_eq]
  refine ⟨fun d hd hleft => ?_, fun d hd => ?_, ?_, fun after => reaches_joiner_iff (by decide)⟩
  · -- all others are in a range and stand alone, whatever their category is
    have hnamed : ∀ d ∈ namedCharacters, d ∈ '\u200D' :: overlookedSigns ∨
        pictographRanges.has d = true ∧ firstPictographCode ≤ d.toNat := by decide +kernel
    refine (hnamed d hd).resolve_right fun ⟨hranges, hcode⟩ => ?_
    have halone := standsAlone_of_mem_scanned hleft
    rw [standsAlone_of_ranges hranges hcode] at halone
    cases halone
  · have hsigns : ∀ d ∈ overlookedSigns, d ∈ listedPictographs ∧ d ≠ '+' ∧ IsUntouched d ∧
        standsAlone Text.category d = false := by decide +kernel
    obtain ⟨hlisted, hplus, huntouched, halone⟩ := hsigns d hd
    exact ⟨hlisted, mem_scanned_iff_of_untouched hplus huntouched halone⟩
  · have halone : standsAlone Text.category '\u200D' = false := by decide +kernel
    simp only [mem_scanned_iff (by decide : '\u200D' ≠ '+'),
      pictographLength_eq_zero_iff_of_plain halone (by decide) (by decide)]

/-- A sign alone, the same sign with a variation selector, and a joiner behind a flag. -/
example : withoutPictographs Text.category "© ©\uFE0F 🇩🇪\u200D!".toList = "© + +\u200D!".toList := by
  decide +kernel

end DesignAudit.Normal
