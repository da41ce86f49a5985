import DesignAudit.Normal.Pictograph
import DesignAudit.Proofs.Text.Replacement

/-!
# What the scan for pictographs leaves

The scan keeps a character or puts a plus sign in the place of a pictograph. What it keeps is no
pictograph on its own, and no key that the key-cap mark follows (`standsAlone_of_mem_scanned`,
`not_keyCap_infix_scanned`), so a text without joiners that was scanned once is left alone by a
second scan (`scanned_eq_self`). All characters of plane one stand alone, so that the last pass
finds nothing to do (`withoutPictographs_eq`). All of this holds whatever the categories of the
characters are.
-/

namespace DesignAudit.Normal

open Text

variable {category : Char → Category} {c : Char} {rest text : List Char}

/-! ## Characters -/

theorem standsAlone_of_ascii (h : c.toNat < 0x80) : standsAlone category c = false := by
  rw [Bool.eq_false_iff, standsAlone]
  split
  · simp only [Ranges.has, pictographRanges, List.any_cons, List.any_nil, Bool.or_false, ne_eq,
      Bool.or_eq_true, Bool.and_eq_true, Nat.ble_eq]
    omega
  · simp only [ne_eq, Bool.and_eq_true, Nat.blt_eq]
    omega

theorem standsAlone_of_ranges (hranges : pictographRanges.has c = true)
    (hcode : firstPictographCode ≤ c.toNat) : standsAlone category c = true := by
  rw [standsAlone]
  split
  · exact hranges
  · have hfirst : 127 < c.toNat := lt_of_lt_of_le (by decide) hcode
    simp [hfirst, hcode]

theorem standsAlone_of_isPlaneOne (h : isPlaneOne c = true) : standsAlone category c = true := by
  simp only [isPlaneOne, Bool.and_eq_true, Nat.ble_eq] at h
  apply standsAlone_of_ranges
  · simp only [Ranges.has, pictographRanges, List.any_cons, List.any_nil, Bool.or_false,
      Bool.or_eq_true, Bool.and_eq_true, Nat.ble_eq]
    omega
  · exact le_trans (by decide) h.1

theorem isPlaneOne_of_isFlagLetter (h : isFlagLetter c = true) : isPlaneOne c = true := by
  simp only [isFlagLetter, isPlaneOne, Bool.and_eq_true, Nat.ble_eq] at h ⊢
  omega

/-- A joiner is the zero-width joiner, or a variation selector, which stands alone as well. -/
theorem isJoiner_cases (h : isJoiner c = true) :
    c.toNat = 0x200D ∨ standsAlone category c = true := by
  simp only [isJoiner, Bool.or_eq_true, beq_iff_eq] at h
  rcases h with (h | h) | h
  · right
    apply standsAlone_of_ranges
    · rw [Ranges.has, h]
      rfl
    · rw [h]
      decide
  · right
    apply standsAlone_of_ranges
    · rw [Ranges.has, h]
      rfl
    · rw [h]
      decide
  · exact .inl h

theorem isJoiner_of_ascii (h : c.toNat < 0x80) : isJoiner c = false := by
  rw [Bool.eq_false_iff]
  simp only [isJoiner, ne_eq, Bool.or_eq_true, beq_iff_eq]
  omega

theorem isPlaneOne_of_ascii (h : c.toNat < 0x80) : isPlaneOne c = false := by
  rw [Bool.eq_false_iff]
  simp only [isPlaneOne, ne_eq, Bool.and_eq_true, Nat.ble_eq]
  omega

theorem isFlagLetter_of_ascii (h : c.toNat < 0x80) : isFlagLetter c = false := by
  rw [Bool.eq_false_iff]
  simp only [isFlagLetter, ne_eq, Bool.and_eq_true, Nat.ble_eq]
  omega

/-- No pictograph begins at a character exactly if it does not stand alone, is followed by no
joiner, and makes neither a flag nor a key with what follows. -/
theorem pictographLength_eq_zero_iff :
    pictographLength category c rest = 0 ↔
      standsAlone category c = false ∧ ∀ next ∈ rest.head?, isJoiner next = false ∧
        (isFlagLetter c && isFlagLetter next) = false ∧
        (isKey c && next.toNat == 0x20E3) = false := by
  cases rest with
  | nil => simp [pictographLength]
  | cons next more =>
    simp only [List.head?_cons, Option.mem_some_iff, forall_eq', pictographLength]
    cases isJoiner next with
    | true => simp
    | false =>
      cases isFlagLetter c && isFlagLetter next with
      | true => simp
      | false => cases isKey c && next.toNat == 0x20E3 <;> simp

/-! ## The scan -/

theorem plussedFrom_eq (skip : Nat) (done text : List Char) :
    plussedFrom category skip done text = done.reverse ++ scanned category (text.drop skip) := by
  induction text generalizing skip done with
  | nil => cases skip <;> simp [plussedFrom, scanned]
  | cons c rest ih =>
    cases skip with
    | succ skip => rw [plussedFrom, ih, List.drop_succ_cons]
    | zero =>
      rw [List.drop_zero, scanned, plussedFrom, plussedFrom]
      split
      · rw [ih, ih 0 [c]]
        simp
      · rename_i n _
        rw [ih, ih n ['+']]
        simp

@[simp]
theorem scanned_nil : scanned category [] = [] := rfl

theorem scanned_kept (h : pictographLength category c rest = 0) :
    scanned category (c :: rest) = c :: scanned category rest := by
  rw [scanned, plussedFrom, h]
  exact plussedFrom_eq 0 [c] rest

theorem scanned_found {n : Nat} (h : pictographLength category c rest = n + 1) :
    scanned category (c :: rest) = '+' :: scanned category (rest.drop n) := by
  rw [scanned, plussedFrom, h]
  exact plussedFrom_eq n ['+'] rest

/-- What holds of the empty text, and of a text that begins with a pictograph or with another
character if it holds of what follows, holds of every text. -/
theorem scanning_induction (category : Char → Category) {motive : List Char → Prop}
    (nil : motive [])
    (kept : ∀ c rest, pictographLength category c rest = 0 → motive rest → motive (c :: rest))
    (found : ∀ c rest n, pictographLength category c rest = n + 1 → motive (rest.drop n) →
      motive (c :: rest))
    (text : List Char) : motive text := by
  induction hlength : text.length using Nat.strongRecOn generalizing text with
  | ind size ih =>
    cases text with
    | nil => exact nil
    | cons c rest =>
      rw [List.length_cons] at hlength
      cases hn : pictographLength category c rest with
      | zero => exact kept c rest hn (ih rest.length (by omega) rest rfl)
      | succ n =>
        refine found c rest n hn (ih (rest.drop n).length ?_ (rest.drop n) rfl)
        rw [List.length_drop]
        omega

/-- The scan makes plus signs only. -/
theorem recast_scanned (category : Char → Category) (text : List Char) :
    Recast ['+'] text (scanned category text) := by
  induction text using scanning_induction category with
  | nil => exact .nil
  | kept c rest h ih =>
    rw [scanned_kept h]
    exact .keep c ih
  | found c rest n h ih =>
    rw [scanned_found h]
    have hmade : Recast ['+'] (c :: rest.take n ++ rest.drop n)
        ('+' :: scanned category (rest.drop n)) := .make List.mem_cons_self (c :: rest.take n) ih
    rwa [List.cons_append, List.take_append_drop] at hmade

/-- No character that the scan leaves stands alone. -/
theorem standsAlone_of_mem_scanned (h : c ∈ scanned category text) :
    standsAlone category c = false := by
  induction text using scanning_induction category with
  | nil => cases h
  | kept d rest hd ih =>
    rw [scanned_kept hd] at h
    rcases List.mem_cons.mp h with rfl | h
    · exact (pictographLength_eq_zero_iff.mp hd).1
    · exact ih h
  | found d rest n hd ih =>
    rw [scanned_found hd] at h
    rcases List.mem_cons.mp h with rfl | h
    · exact standsAlone_of_ascii (by decide)
    · exact ih h

/-- No key that the scan leaves has the key-cap mark behind it. -/
theorem not_keyCap_infix_scanned {key mark : Char} (hkey : isKey key = true)
    (hmark : mark.toNat = 0x20E3) : ¬ [key, mark] <:+: scanned category text := by
  have hplus : key ≠ '+' := by
    rintro rfl
    revert hkey
    decide
  have hmark' : mark ≠ '+' := by
    rintro rfl
    revert hmark
    decide
  induction text using scanning_induction category with
  | nil => simp
  | kept c rest h ih =>
    rw [scanned_kept h, List.infix_cons_iff, not_or]
    refine ⟨fun hbegin => ?_, ih⟩
    rw [List.cons_prefix_cons] at hbegin
    obtain ⟨rfl, hmarked⟩ := hbegin
    -- the mark was kept, so it stood right behind the key in the text, too
    have hhead : (scanned category rest).head? = some mark := by
      obtain ⟨after, hafter⟩ := hmarked
      rw [← hafter]
      rfl
    have hnext := ((recast_scanned category rest).head? hhead).resolve_left (by simpa using hmark')
    have hzero := ((pictographLength_eq_zero_iff.mp h).2 mark hnext).2.2
    simp [hkey, hmark] at hzero
  | found c rest n h ih =>
    rw [scanned_found h, List.infix_cons_iff, not_or]
    refine ⟨fun hbegin => ?_, ih⟩
    rw [List.cons_prefix_cons] at hbegin
    exact hplus hbegin.1

/-- A text in which no pictograph is to be found is left as it is. -/
theorem scanned_eq_self (halone : ∀ c ∈ text, standsAlone category c = false)
    (hjoiner : ∀ c ∈ text, isJoiner c = false)
    (hkey : ∀ key mark, isKey key = true → mark.toNat = 0x20E3 → ¬ [key, mark] <:+: text) :
    scanned category text = text := by
  induction text with
  | nil => rfl
  | cons c rest ih =>
    have hzero : pictographLength category c rest = 0 := by
      refine pictographLength_eq_zero_iff.mpr ⟨halone c List.mem_cons_self, fun next hnext => ?_⟩
      obtain ⟨more, rfl⟩ : ∃ more, rest = next :: more := by
        cases rest with
        | nil => cases hnext
        | cons d more => exact ⟨more, by rw [Option.some.inj hnext]⟩
      refine ⟨hjoiner next (by simp), ?_, ?_⟩
      · -- a flag letter would stand alone
        rw [Bool.eq_false_iff, ne_eq, Bool.and_eq_true]
        rintro ⟨hflag, -⟩
        have hc := halone c List.mem_cons_self
        rw [standsAlone_of_isPlaneOne (isPlaneOne_of_isFlagLetter hflag)] at hc
        cases hc
      · rw [Bool.eq_false_iff, ne_eq, Bool.and_eq_true, beq_iff_eq]
        rintro ⟨hiskey, hmark⟩
        exact hkey c next hiskey hmark ⟨[], more, rfl⟩
    rw [scanned_kept hzero, ih (fun d hd => halone d (List.mem_cons_of_mem c hd))
      (fun d hd => hjoiner d (List.mem_cons_of_mem c hd))
      fun key mark hiskey hmark h =>
        hkey key mark hiskey hmark (h.trans (List.suffix_cons c rest).isInfix)]

/-! ## The last pass -/

theorem sweptFrom_eq {run done : List Char} (hrun : ∀ c ∈ run, isPlaneOne c = false)
    (htext : ∀ c ∈ text, isPlaneOne c = false) :
    sweptFrom run done text = (run ++ done).reverse ++ text := by
  have hswept : ∀ {run : List Char}, (∀ c ∈ run, isPlaneOne c = false) → sweptRun run = run := by
    intro run hrun
    rw [sweptRun, if_neg]
    rw [List.any_eq_true]
    rintro ⟨c, hc, hplane⟩
    rw [hrun c hc] at hplane
    cases hplane
  induction text generalizing run done with
  | nil => rw [sweptFrom, hswept hrun, List.append_nil]
  | cons c rest ih =>
    have hrest : ∀ d ∈ rest, isPlaneOne d = false := fun d hd => htext d (List.mem_cons_of_mem c hd)
    rw [sweptFrom]
    split
    · rw [ih (List.forall_mem_cons.mpr ⟨htext c List.mem_cons_self, hrun⟩) hrest]
      simp
    · rw [ih (fun d hd => absurd hd List.not_mem_nil) hrest, hswept hrun]
      simp

/-- The last pass over a scanned text changes nothing. -/
theorem withoutPictographs_eq (category : Char → Category) (text : List Char) :
    withoutPictographs category text = scanned category text := by
  have hplane : ∀ c ∈ scanned category text, isPlaneOne c = false := by
    intro c hc
    rw [Bool.eq_false_iff]
    intro h
    have halone := standsAlone_of_mem_scanned hc
    rw [standsAlone_of_isPlaneOne h] at halone
    cases halone
  rw [withoutPictographs, swept, sweptFrom_eq (fun c hc => absurd hc List.not_mem_nil) hplane]
  rfl

/-! ## Where a text can be divided -/

/-- What a joiner takes with it ends before a character that joins nothing. -/
theorem takeWhile_take_append {p : Char → Bool} (n : Nat) (more v : List Char)
    (hv : ∀ b ∈ v.head?, p b = false) :
    ((more ++ v).take n).takeWhile p = (more.take n).takeWhile p := by
  induction more generalizing n with
  | nil =>
    cases v with
    | nil => rfl
    | cons b v =>
      cases n with
      | zero => rfl
      | succ n => simp [hv b rfl]
  | cons d more ih =>
    cases n with
    | zero => rfl
    | succ n =>
      rw [List.cons_append, List.take_succ_cons, List.take_succ_cons, List.takeWhile_cons,
        List.takeWhile_cons, ih n]

/-- No pictograph reaches across the beginning of a text in ASCII. -/
theorem pictographLength_append {v : List Char} (hv : ∀ b ∈ v.head?, b.toNat < 0x80) :
    pictographLength category c (rest ++ v) = pictographLength category c rest := by
  cases rest with
  | nil =>
    cases v with
    | nil => rfl
    | cons b v =>
      have hb : b.toNat < 0x80 := hv b rfl
      have hmark : (b.toNat == 0x20E3) = false := by
        rw [beq_eq_false_iff_ne]
        omega
      simp [pictographLength, isJoiner_of_ascii hb, isFlagLetter_of_ascii hb, hmark]
  | cons next more =>
    simp only [List.cons_append, pictographLength]
    rw [takeWhile_take_append joinedLimit more v fun b hb => by
      simp [isJoiner_of_ascii (hv b hb), isPlaneOne_of_ascii (hv b hb)]]

theorem pictographLength_le (category : Char → Category) (c : Char) (rest : List Char) :
    pictographLength category c rest ≤ rest.length + 1 := by
  cases rest with
  | nil =>
    rw [pictographLength]
    split <;> simp
  | cons next more =>
    have hjoined : ((more.take joinedLimit).takeWhile fun d => isJoiner d || isPlaneOne d).length ≤
        more.length :=
      le_trans (List.takeWhile_prefix _).length_le (List.take_prefix _ _).length_le
    simp only [pictographLength, List.length_cons]
    split_ifs <;> omega

/-- A text can be scanned in two halves if the second one begins with an ASCII character. -/
theorem scanned_append {u v : List Char} (hv : ∀ b ∈ v.head?, b.toNat < 0x80) :
    scanned category (u ++ v) = scanned category u ++ scanned category v := by
  induction u using scanning_induction category with
  | nil => rfl
  | kept c rest h ih =>
    rw [List.cons_append, scanned_kept ((pictographLength_append hv).trans h), scanned_kept h, ih,
      List.cons_append]
  | found c rest n h ih =>
    have hlength := pictographLength_le category c rest
    have hn : n ≤ rest.length := by omega
    rw [List.cons_append, scanned_found ((pictographLength_append hv).trans h), scanned_found h,
      List.drop_append_of_le_length hn, ih, List.cons_append]

/-- An ASCII character is kept unless a joiner, or the key-cap mark after a key, follows. -/
theorem scanned_cons_of_ascii (hc : c.toNat < 0x80) (hkey : isKey c = false)
    (hrest : ∀ b ∈ rest.head?, isJoiner b = false) :
    scanned category (c :: rest) = c :: scanned category rest := by
  refine scanned_kept (pictographLength_eq_zero_iff.mpr ⟨standsAlone_of_ascii hc, fun b hb => ?_⟩)
  simp [hrest b hb, isFlagLetter_of_ascii hc, hkey]

end DesignAudit.Normal
