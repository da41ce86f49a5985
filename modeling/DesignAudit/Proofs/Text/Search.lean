import DesignAudit.Text.Blank
import DesignAudit.Text.Letter
import DesignAudit.Text.Search
import Mathlib.Data.List.Infix
import Mathlib.Data.List.TakeWhile

/-!
# Parts and ends of a text

What it means that a text begins with another one or has it as a part, which characters are blank,
which ones can belong to a plain identifier, and what trimming leaves of a text.
-/

namespace DesignAudit.Text

/-- What holds of all characters of a text is decided on the text, not by going through all
characters that there are. -/
instance (priority := 2000) decidableForallMemText (p : Char → Prop) [DecidablePred p]
    (text : List Char) : Decidable (∀ c ∈ text, p c) :=
  List.decidableBAll p text

instance (priority := 2000) decidableForallMemChar? (p : Char → Prop) [DecidablePred p]
    (char : Option Char) : Decidable (∀ c ∈ char, p c) :=
  Option.decidableForallMem char

variable {c : Char} {openings : List String} {line part text : String}

theorem beginsWith_iff :
    beginsWith part text = true ↔ part.toList <+: text.toList := by
  rw [beginsWith, List.isPrefixOf_iff_prefix]

theorem beginsWith_self (s : String) : beginsWith s s = true :=
  beginsWith_iff.mpr List.prefix_rfl

theorem beginsWith_append (h : beginsWith part text = true)
    (rest : String) : beginsWith part (text ++ rest) = true := by
  rw [beginsWith_iff] at h ⊢
  rw [String.toList_append]
  exact h.trans (List.prefix_append _ _)

theorem beginsWith_append₂ (h : beginsWith part text = true) (more rest : String) :
    beginsWith part (text ++ more ++ rest) = true :=
  beginsWith_append (beginsWith_append h more) rest

/-- Of two texts that begin the same text one begins the other. -/
theorem beginsWith_eq_false_of_clash (other : String) (h : beginsWith other text = true)
    (hclash : beginsWith part other = false ∧ beginsWith other part = false) :
    beginsWith part text = false := by
  rw [Bool.eq_false_iff]
  intro hpart
  rw [beginsWith_iff] at h hpart
  rcases List.prefix_or_prefix_of_prefix hpart h with hle | hle
  · exact Bool.eq_false_iff.mp hclash.1 (beginsWith_iff.mpr hle)
  · exact Bool.eq_false_iff.mp hclash.2 (beginsWith_iff.mpr hle)

/-- Whether a line has one of some openings. -/
def opensWith (openings : List String) (line : String) : Bool := openings.any (beginsWith · line)

theorem opensWith_append (h : opensWith openings line = true) (rest : String) :
    opensWith openings (line ++ rest) = true := by
  obtain ⟨opening, hopening, hbegins⟩ := List.any_eq_true.mp h
  exact List.any_eq_true.mpr ⟨opening, hopening, beginsWith_append hbegins rest⟩

theorem opensWith_append₂ (h : opensWith openings line = true) (more rest : String) :
    opensWith openings (line ++ more ++ rest) = true :=
  opensWith_append (opensWith_append h more) rest

/-- A line does not begin with a text that none of its openings goes together with. -/
theorem beginsWith_eq_false_of_opensWith (hclash : ∀ opening ∈ openings,
      beginsWith part opening = false ∧ beginsWith opening part = false)
     (h : opensWith openings line = true) : beginsWith part line = false := by
  obtain ⟨opening, hopening, hbegins⟩ := List.any_eq_true.mp h
  exact beginsWith_eq_false_of_clash opening hbegins (hclash opening hopening)

theorem hasPart_iff {part text : List Char} : hasPart part text = true ↔ part <:+: text := by
  induction text with
  | nil =>
    rw [hasPart, List.isEmpty_iff, List.infix_nil]
  | cons c text ih =>
    rw [hasPart, Bool.or_eq_true, List.isPrefixOf_iff_prefix, ih, List.infix_cons_iff]

theorem has_iff : has part text = true ↔ part.toList <:+: text.toList :=
  hasPart_iff

theorem has_eq_false_iff :
    has part text = false ↔ ¬ part.toList <:+: text.toList := by
  rw [Bool.eq_false_iff, ne_eq, has_iff]

theorem has_of_has_append (rest : String)
    (h : has (part ++ rest) text = true) : has part text = true := by
  rw [has_iff, String.toList_append] at h
  rw [has_iff]
  exact (List.prefix_append part.toList rest.toList).isInfix.trans h

/-- A text stays as it is if its characters do. -/
theorem replace_eq_self {part new text : String} {cs : List Char} (htext : text.toList = cs)
    (h : replaceParts part.toList new.toList cs = cs) : replace part new text = text := by
  rw [replace, htext, h, ← htext, String.ofList_toList]

/-! ## Plain identifiers -/

theorem toNat_lt_of_isIdentifier (h : isIdentifier c = true) : c.toNat < 128 := by
  have hranges : (decide (c.val ≥ 'A'.val ∧ c.val ≤ 'Z'.val) ||
      (decide (c.val ≥ 'a'.val) && decide (c.val ≤ 'z'.val)) ||
      (decide (c.val ≥ '0'.val) && decide (c.val ≤ '9'.val)) || c == '_') = true := h
  have hlast : ('Z'.val.toNat = 90 ∧ 'z'.val.toNat = 122) ∧ '9'.val.toNat = 57 := by decide
  have hval : c.val.toNat = c.toNat := rfl
  simp only [Bool.or_eq_true, Bool.and_eq_true, decide_eq_true_eq, beq_iff_eq, ge_iff_le,
    UInt32.le_iff_toNat_le, hval] at hranges
  rcases hranges with hranges | rfl
  · omega
  · decide

/-- What holds of the characters of plain names below 128 holds of all of them. -/
theorem forall_of_isIdentifier {p : Char → Prop}
    (h : ∀ n < 128, isIdentifier (Char.ofNat n) = true → p (Char.ofNat n))
    (hc : isIdentifier c = true) : p c := by
  have hsmall := h c.toNat (toNat_lt_of_isIdentifier hc)
  rw [Char.ofNat_toNat] at hsmall
  exact hsmall hc

/-! ## Blanks -/

def blankCodes : List Nat :=
  [0x9, 0xA, 0xB, 0xC, 0xD, 0x1C, 0x1D, 0x1E, 0x1F, 0x20, 0x85, 0xA0, 0x1680, 0x2000, 0x2001, 0x2002,
   0x2003, 0x2004, 0x2005, 0x2006, 0x2007, 0x2008, 0x2009, 0x200A, 0x2028, 0x2029, 0x202F, 0x205F,
   0x3000]

theorem toNat_mem_blankCodes (h : isBlank c = true) : c.toNat ∈ blankCodes := by
  simp only [isBlank, Ranges.has, blankRanges, List.any_cons, List.any_nil, Bool.or_false,
    Bool.or_eq_true, Bool.and_eq_true, Nat.ble_eq] at h
  simp only [blankCodes, List.mem_cons, List.not_mem_nil, or_false]
  omega

/-- Blanks do not belong to words. -/
theorem isWord_of_isBlank (h : isBlank c = true) : isWord c = false := by
  have hcodes : ∀ n ∈ blankCodes, isWord (Char.ofNat n) = false := by decide +kernel
  have hc := hcodes c.toNat (toNat_mem_blankCodes h)
  rwa [Char.ofNat_toNat] at hc

/-- A text is what is left of it after trimming, between characters of the class. -/
theorem exists_trimChars_eq (p : Char → Bool) (cs : List Char) :
    ∃ xs ys, cs = xs ++ (trimChars p cs ++ ys) ∧ (∀ c ∈ xs, p c = true) ∧ ∀ c ∈ ys, p c = true := by
  refine ⟨cs.takeWhile p, ((cs.dropWhile p).reverse.takeWhile p).reverse, ?_, ?_, ?_⟩
  · rw [trimChars, dropTrailing, ← List.reverse_append, List.takeWhile_append_dropWhile,
      List.reverse_reverse, List.takeWhile_append_dropWhile]
  · exact fun c hc => List.mem_takeWhile_imp hc
  · exact fun c hc => List.mem_takeWhile_imp (List.mem_reverse.mp hc)

/-- What a text begins with after trimming, if none of it is trimmed, stands behind characters of the
class in the text. -/
theorem isPrefix_trimChars_iff {p : Char → Bool} {part cs : List Char} (hne : part ≠ [])
    (hpart : ∀ c ∈ part, p c = false) :
    part <+: trimChars p cs ↔
      ∃ lead rest, (∀ c ∈ lead, p c = true) ∧ cs = lead ++ (part ++ rest) := by
  have hkept : ∀ ds : List Char, (∀ c ∈ ds, p c = false) → ds.dropWhile p = ds := fun ds hds =>
    List.dropWhile_eq_self_iff.mpr fun hlength => by simp [hds _ (List.getElem_mem hlength)]
  constructor
  · rintro ⟨rest, hrest⟩
    obtain ⟨lead, trail, hcs, hlead, -⟩ := exists_trimChars_eq p cs
    exact ⟨lead, rest ++ trail, hlead, by rw [hcs, ← hrest, List.append_assoc]⟩
  · rintro ⟨lead, rest, hlead, rfl⟩
    obtain ⟨c, part, rfl⟩ := List.exists_cons_of_ne_nil hne
    have hfront : (lead ++ (c :: part ++ rest)).dropWhile p = c :: part ++ rest := by
      rw [List.dropWhile_append_of_pos hlead, List.cons_append,
        List.dropWhile_cons_of_neg (by simp [hpart])]
    -- the search from the back stops at the part, if not before it
    have hback : ∃ more, (c :: part ++ rest).reverse.dropWhile p = more ++ (c :: part).reverse := by
      rw [List.reverse_append, List.dropWhile_append]
      split
      · exact ⟨[], hkept _ fun d hd => hpart d (List.mem_reverse.mp hd)⟩
      · exact ⟨_, rfl⟩
    obtain ⟨more, hmore⟩ := hback
    rw [trimChars, hfront, dropTrailing, hmore, List.reverse_append, List.reverse_reverse]
    exact List.prefix_append _ _

theorem length_trimChars_le (p : Char → Bool) (cs : List Char) :
    (trimChars p cs).length ≤ cs.length := by
  obtain ⟨xs, ys, h, -, -⟩ := exists_trimChars_eq p cs
  exact List.IsInfix.length_le ⟨xs, ys, by rw [List.append_assoc, ← h]⟩

end DesignAudit.Text
