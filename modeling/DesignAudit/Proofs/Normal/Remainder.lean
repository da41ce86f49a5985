import DesignAudit.Proofs.Normal.Pictograph
import DesignAudit.Proofs.Text.Cutting
import Mathlib.Data.List.Chain

/-!
# What is left of a text without its pictographs

A pictograph is a character that stands alone, or one with what joins, pairs or caps it
(`IsPictograph`). It takes no ASCII character with it, its own head apart, and an ASCII character is
the head of one only if a joiner follows it, or the key-cap mark follows a key. In a text where neither
is the case (`Unjoined`), markup comes through as it is: the ASCII characters other than the plus sign
are the same ones in the same order, and the lines of the text are treated one by one
(`markup_kept`).

Of the characters beyond ASCII, none that the scan can tell as a pictograph is left, so that the last
pass has nothing to do (`nothing_left_to_sweep`).
-/

namespace DesignAudit.Normal

open Text

variable {category : Char → Category} {c : Char} {rest text : List Char}

/-! ## Pictographs -/

/-- The kinds of pictographs, by their head and the characters behind it. -/
inductive IsPictograph (category : Char → Category) (c : Char) : List Char → Prop where
  | joined {next : Char} {more : List Char} (joins : isJoiner next = true)
      (takes : ∀ d ∈ more, isJoiner d = true ∨ isPlaneOne d = true) :
      IsPictograph category c (next :: more)
  | flag {next : Char} (first : isFlagLetter c = true) (second : isFlagLetter next = true) :
      IsPictograph category c [next]
  | keyCap {mark : Char} (key : isKey c = true) (caps : mark.toNat = 0x20E3) :
      IsPictograph category c [mark]
  | alone (stands : standsAlone category c = true) : IsPictograph category c []

/-- Whatever the scan replaces is a pictograph. -/
theorem isPictograph_take {n : Nat} (h : pictographLength category c rest = n + 1) :
    IsPictograph category c (rest.take n) := by
  cases rest with
  | nil =>
    rw [pictographLength] at h
    split_ifs at h with halone
    rw [List.take_nil]
    exact .alone halone
  | cons next more =>
    rw [pictographLength] at h
    split_ifs at h with hjoins hflags hkey halone
    · have hpre := (List.takeWhile_prefix (fun d => isJoiner d || isPlaneOne d)).trans
        (List.take_prefix joinedLimit more)
      obtain rfl : n = ((more.take joinedLimit).takeWhile
          fun d => isJoiner d || isPlaneOne d).length + 1 := by omega
      rw [List.take_succ_cons, ← List.prefix_iff_eq_take.mp hpre]
      refine .joined hjoins fun d hd => ?_
      have hjoined := List.mem_takeWhile_imp hd
      rwa [Bool.or_eq_true] at hjoined
    · obtain rfl : n = 1 := by omega
      rw [Bool.and_eq_true] at hflags
      exact .flag hflags.1 hflags.2
    · obtain rfl : n = 1 := by omega
      rw [Bool.and_eq_true, beq_iff_eq] at hkey
      exact .keyCap hkey.1 hkey.2
    · obtain rfl : n = 0 := by omega
      exact .alone halone

namespace IsPictograph

variable {taken : List Char}

/-- A pictograph takes no ASCII character with it. -/
theorem beyond_ascii (h : IsPictograph category c taken) : ∀ d ∈ taken, 0x80 ≤ d.toNat := by
  intro d hd
  by_contra hascii
  rw [not_le] at hascii
  cases h with
  | joined joins takes =>
    rcases List.mem_cons.mp hd with rfl | hd
    · simp [isJoiner_of_ascii hascii] at joins
    · simpa [isJoiner_of_ascii hascii, isPlaneOne_of_ascii hascii] using takes d hd
  | flag _ second =>
    rw [List.mem_singleton.mp hd] at hascii
    simp [isFlagLetter_of_ascii hascii] at second
  | keyCap _ caps =>
    rw [List.mem_singleton.mp hd] at hascii
    omega
  | alone _ => cases hd

/-- An ASCII character is the head of a pictograph only if a joiner follows it, or the key-cap mark
follows a key. -/
theorem head_beyond_ascii (h : IsPictograph category c taken)
    (hjoiner : ∀ d ∈ taken.head?, c.toNat < 0x80 → isJoiner d = false)
    (hkey : ∀ d ∈ taken.head?, isKey c = true → d.toNat ≠ 0x20E3) : 0x80 ≤ c.toNat := by
  by_contra hascii
  rw [not_le] at hascii
  cases h with
  | joined joins takes =>
    rw [hjoiner _ rfl hascii] at joins
    cases joins
  | flag first _ =>
    rw [isFlagLetter_of_ascii hascii] at first
    cases first
  | keyCap key caps => exact hkey _ rfl key caps
  | alone stands =>
    rw [standsAlone_of_ascii hascii] at stands
    cases stands

end IsPictograph

/-! ## Markup -/

/-- Markup is written in ASCII. A plus sign is left out, since it may stand for a pictograph. -/
def isMarkup (c : Char) : Bool := Nat.blt c.toNat 0x80 && c != '+'

/-- No joiner follows an ASCII character directly, and no key-cap mark a key. -/
def Unjoined (text : List Char) : Prop :=
  text.IsChain fun c next =>
    (c.toNat < 0x80 → isJoiner next = false) ∧ (isKey c = true → next.toNat ≠ 0x20E3)

instance (text : List Char) : Decidable (Unjoined text) :=
  inferInstanceAs (Decidable (text.IsChain _))

theorem Unjoined.drop (h : Unjoined text) (n : Nat) : Unjoined (text.drop n) :=
  List.IsChain.drop h n

theorem Unjoined.next (h : Unjoined (c :: rest)) :
    ∀ next ∈ rest.head?, (c.toNat < 0x80 → isJoiner next = false) ∧
      (isKey c = true → next.toNat ≠ 0x20E3) :=
  (List.isChain_cons.mp h).1

theorem isMarkup_of_beyond_ascii (h : 0x80 ≤ c.toNat) : isMarkup c = false := by
  rw [isMarkup, Bool.and_eq_false_iff, ← Bool.not_eq_true, Nat.blt_eq]
  exact .inl (by omega)

theorem mem_head?_of_mem_head?_take {n : Nat} {d : Char} (h : d ∈ (rest.take n).head?) :
    d ∈ rest.head? := by
  cases rest with
  | nil => simp at h
  | cons next more =>
    cases n with
    | zero => simp at h
    | succ n => exact h

theorem filter_isMarkup_scanned (h : Unjoined text) :
    (scanned category text).filter isMarkup = text.filter isMarkup := by
  induction text using scanning_induction category with
  | nil => rfl
  | kept c rest hzero ih =>
    rw [scanned_kept hzero, List.filter_cons, List.filter_cons, ih (h.drop 1)]
  | found c rest n hfound ih =>
    have hpictograph := isPictograph_take hfound
    have hhead : isMarkup c = false :=
      isMarkup_of_beyond_ascii (hpictograph.head_beyond_ascii
        (fun d hd => (h.next d (mem_head?_of_mem_head?_take hd)).1)
        fun d hd => (h.next d (mem_head?_of_mem_head?_take hd)).2)
    have htaken : (rest.take n).filter isMarkup = [] := by
      rw [List.filter_eq_nil_iff]
      intro d hd
      rw [isMarkup_of_beyond_ascii (hpictograph.beyond_ascii d hd)]
      decide
    calc (scanned category (c :: rest)).filter isMarkup
        = (scanned category (rest.drop n)).filter isMarkup := by
          rw [scanned_found hfound]
          rfl
      _ = (rest.drop n).filter isMarkup := ih (h.drop (n + 1))
      _ = (rest.take n ++ rest.drop n).filter isMarkup := by
          rw [List.filter_append, htaken, List.nil_append]
      _ = (c :: rest).filter isMarkup := by
          rw [List.take_append_drop, List.filter_cons_of_neg (by rw [hhead]; decide)]

/-- The scan treats the lines of a text one by one. -/
theorem cut_scanned (h : Unjoined text) :
    cut ['\n'] (scanned category text) = (cut ['\n'] text).map (scanned category) := by
  induction hlength : text.length using Nat.strongRecOn generalizing text with
  | ind size ih =>
    by_cases hline : '\n' ∈ text
    · obtain ⟨u, v, rfl, hu⟩ := List.eq_append_cons_of_mem hline
      have hv : Unjoined ('\n' :: v) := by
        have := h.drop u.length
        rwa [List.drop_left] at this
      have hscan : scanned category (u ++ '\n' :: v) =
          scanned category u ++ '\n' :: scanned category v := by
        rw [scanned_append fun b hb => by rw [← Option.some.inj hb]; decide,
          scanned_cons_of_ascii (by decide) (by decide) fun b hb => (hv.next b hb).1 (by decide)]
      have hkept : '\n' ∉ scanned category u := fun hmem =>
        ((recast_scanned category u).mem hmem).elim hu (by decide)
      have hrest : cut ['\n'] (scanned category v) = (cut ['\n'] v).map (scanned category) := by
        refine ih v.length ?_ (hv.drop 1) rfl
        rw [List.length_append, List.length_cons] at hlength
        omega
      rw [hscan, cut_singleton_append hkept, cut_singleton_append hu, List.map_cons, hrest]
    · have hkept : '\n' ∉ scanned category text := fun hmem =>
        ((recast_scanned category text).mem hmem).elim hline (by decide)
      rw [cut_of_not_occurs (by decide) (mt (fun h => h.subset List.mem_cons_self) hline),
        cut_of_not_occurs (by decide) (mt (fun h => h.subset List.mem_cons_self) hkept)]
      rfl

/-- **Markup comes through as it is.** Where no ASCII character is followed by a joiner, and no key by
the key-cap mark, a text without its pictographs has the same ASCII characters in the same order,
plus signs apart, so that no sign of markup is lost, doubled or moved. The lines of the text are those
of the original, each without its own pictographs, so that every line keeps its number. -/
theorem markup_kept (category : Char → Category) {text : List Char} (h : Unjoined text) :
    (withoutPictographs category text).filter isMarkup = text.filter isMarkup ∧
    cut ['\n'] (withoutPictographs category text) =
      (cut ['\n'] text).map (withoutPictographs category) := by
  have hscan : withoutPictographs category = scanned category :=
    funext (withoutPictographs_eq category)
  rw [hscan]
  exact ⟨filter_isMarkup_scanned h, cut_scanned h⟩

/-- Two lines with a tag, an entity, a family, a flag and a varied sign. -/
def familyText : List Char := "<a b='👨\u200D👩\u200D👧'>\n&amp;🇩🇪 1+1 ©\uFE0F</a>".toList

theorem familyText_markup_kept :
    Unjoined familyText ∧
    withoutPictographs Text.category familyText = "<a b='+'>\n&amp;+ 1+1 +</a>".toList ∧
    (withoutPictographs Text.category familyText).filter isMarkup = familyText.filter isMarkup ∧
    cut ['\n'] (withoutPictographs Text.category familyText) =
      (cut ['\n'] familyText).map (withoutPictographs Text.category) := by
  have hunjoined : Unjoined familyText := by decide +kernel
  exact ⟨hunjoined, by decide +kernel, markup_kept Text.category hunjoined⟩

/-! ## What is left beyond ASCII -/

theorem length_scanned_le (category : Char → Category) (text : List Char) :
    (scanned category text).length ≤ text.length := by
  induction text using scanning_induction category with
  | nil => rfl
  | kept c rest hzero ih =>
    rw [scanned_kept hzero, List.length_cons, List.length_cons]
    omega
  | found c rest n hfound ih =>
    rw [scanned_found hfound, List.length_cons, List.length_cons]
    rw [List.length_drop] at ih
    omega

/-- A character from the watch symbol onwards that does not stand alone is a symbol or unassigned, and
in none of the ranges. -/
theorem of_not_standsAlone (h : standsAlone category c = false)
    (hcode : firstPictographCode ≤ c.toNat) :
    category c ≠ .remaining ∧ pictographRanges.has c = false := by
  rw [standsAlone] at h
  split_ifs at h with hdecides
  · exact ⟨bne_iff_ne.mp hdecides, h⟩
  · have hbeyond : Nat.blt 127 c.toNat = true :=
      Nat.blt_eq.mpr (lt_of_lt_of_le (by decide) hcode)
    have hfirst : Nat.ble firstPictographCode c.toNat = true := Nat.ble_eq.mpr hcode
    simp [hbeyond, hfirst] at h

theorem not_has_iff {ranges : Ranges} :
    ranges.has c = false ↔ ∀ r ∈ ranges, ¬ (r.1 ≤ c.toNat ∧ c.toNat ≤ r.2) := by
  rw [Ranges.has, List.any_eq_false]
  simp only [Bool.and_eq_true, Nat.ble_eq]

/-- **Nothing is left for the last pass.** Whatever the categories of the characters are, the scan of
a text leaves no character of the pictographs of plane one, no variation selector, and of the
characters from the watch symbol onwards only symbols and unassigned ones that are in none of the
ranges. So the last pass changes nothing, and the text has not become longer. -/
theorem nothing_left_to_sweep (category : Char → Category) (text : List Char) :
    (∀ d ∈ scanned category text, ¬ (0x1F000 ≤ d.toNat ∧ d.toNat ≤ 0x1FFFF) ∧
      d.toNat ≠ 0xFE0E ∧ d.toNat ≠ 0xFE0F ∧
      (0x231A ≤ d.toNat → (category d = .otherSymbol ∨ category d = .unassigned) ∧
        ∀ r ∈ pictographRanges, ¬ (r.1 ≤ d.toNat ∧ d.toNat ≤ r.2))) ∧
    swept (scanned category text) = scanned category text ∧
    (withoutPictographs category text).length ≤ text.length := by
  refine ⟨fun d hd => ?_, withoutPictographs_eq category text, ?_⟩
  · have hleft : firstPictographCode ≤ d.toNat → category d ≠ .remaining ∧
        ∀ r ∈ pictographRanges, ¬ (r.1 ≤ d.toNat ∧ d.toNat ≤ r.2) := fun hcode =>
      (of_not_standsAlone (standsAlone_of_mem_scanned hd) hcode).imp_right not_has_iff.mp
    have hselector : ¬ (0xFE00 ≤ d.toNat ∧ d.toNat ≤ 0xFE0F) := fun h =>
      (hleft (le_trans (by decide) h.1)).2 (0xFE00, 0xFE0F) (by decide) h
    refine ⟨fun h => ?_, by omega, by omega, fun hcode => ?_⟩
    · exact (hleft (le_trans (by decide) h.1)).2 (0x1F000, 0x1FFFF) (by decide) h
    · refine (hleft hcode).imp_left fun hcategory => ?_
      cases hd : category d with
      | otherSymbol => exact .inl rfl
      | unassigned => exact .inr rfl
      | remaining => exact absurd hd hcategory
  · rw [withoutPictographs_eq]
    exact length_scanned_le category text

/-- A hexagram is a symbol beyond the watch that is in none of the ranges; a raised thumb with its
variation selector is a pictograph. -/
theorem hexagram_left :
    scanned Text.category ['👍', '\uFE0F', '䷀'] = ['+', '䷀'] ∧
    (∀ r ∈ pictographRanges, ¬ (r.1 ≤ '䷀'.toNat ∧ '䷀'.toNat ≤ r.2)) ∧
    swept ['+', '䷀'] = ['+', '䷀'] := by
  have hscan : scanned Text.category ['👍', '\uFE0F', '䷀'] = ['+', '䷀'] := by decide +kernel
  obtain ⟨hleft, hswept, -⟩ := nothing_left_to_sweep Text.category ['👍', '\uFE0F', '䷀']
  rw [hscan] at hleft hswept
  exact ⟨hscan, ((hleft '䷀' (by decide)).2.2.2 (by decide)).2, hswept⟩

end DesignAudit.Normal
