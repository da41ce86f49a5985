import DesignAudit.Proofs.Encoding.RoundTrip
import DesignAudit.Proofs.Markup.Written
import DesignAudit.Proofs.Text.Replacement

/-!
# Written documents in the encoding that they declare

A document that declares an encoding with one byte for each character is read byte by byte. This
leaves ASCII characters as they are and makes characters beyond ASCII of the others
(`recast_bytewiseText`), so that a document with ASCII names is a document again, with the same
markup (`Document.WellFormed.inBytes`, `Document.text_inBytes`). What the declaration names does not
depend on what follows it (`declaredEncoding?_instruction`).
-/

namespace DesignAudit.Markup

open Text (Recast)

/-! ## ASCII -/

def IsAscii (s : List Char) : Prop := ∀ c ∈ s, c.toNat < 0x80

/-- The names in a piece of markup are ASCII names. -/
def AsciiNames : Mark → Prop
  | .start tag => IsAscii tag.name ∧ ∀ a ∈ tag.attributes, IsAscii a.name
  | .stop name _ => IsAscii name
  | .instruction target _ _ => IsAscii target
  | _ => True

structure HasAsciiNames (d : Document) : Prop where
  prolog : ∀ s ∈ d.prolog, AsciiNames s.mark
  root : AsciiNames (.start d.root)
  segments : ∀ s ∈ d.segments, AsciiNames s.mark

instance (s : List Char) : Decidable (IsAscii s) := inferInstanceAs (Decidable (∀ _ ∈ _, _))

instance : (m : Mark) → Decidable (AsciiNames m)
  | .start _ => inferInstanceAs (Decidable (_ ∧ ∀ _ ∈ _, _))
  | .stop name _ => inferInstanceAs (Decidable (IsAscii name))
  | .literal _ => inferInstanceAs (Decidable True)
  | .comment _ => inferInstanceAs (Decidable True)
  | .instruction target _ _ => inferInstanceAs (Decidable (IsAscii target))
  | .doctype _ => inferInstanceAs (Decidable True)

instance (d : Document) : Decidable (HasAsciiNames d) :=
  decidable_of_iff ((∀ s ∈ d.prolog, AsciiNames s.mark) ∧ AsciiNames (.start d.root) ∧
      ∀ s ∈ d.segments, AsciiNames s.mark)
    ⟨fun ⟨hprolog, hroot, hsegments⟩ => ⟨hprolog, hroot, hsegments⟩,
      fun h => ⟨h.prolog, h.root, h.segments⟩⟩

variable {c : Char} {text : List Char} {n : Nat} {a : WrittenAttribute}

theorem ascii_of_isSpace (h : isSpace c = true) : c.toNat < 0x80 := by
  rcases isSpace_cases h with rfl | rfl | rfl | rfl <;> decide

theorem isAscii_of_isBlank {s : List Char} (h : IsBlank s) : IsAscii s := fun c hc =>
  ascii_of_isSpace (h c hc)

theorem ascii_of_isDeclarationChar (h : isDeclarationChar c = true) :
    c.toNat < 0x80 := by
  rw [isDeclarationChar, Bool.and_eq_true, Nat.blt_eq] at h
  exact h.1

/-! ## Texts read byte by byte -/

/-- The bytes of a character, each read as the character of that code. -/
def byteChars (c : Char) : List Char := (Encoding.utf8Bytes c).map fun b => Char.ofNat b.toNat

def bytewiseText (text : List Char) : List Char := text.flatMap byteChars

/-- The characters beyond ASCII that a byte can stand for. -/
def highChars : List Char := (List.range 0x80).map fun n => Char.ofNat (0x80 + n)

theorem bytewise_eq (s : String) : bytewise s = bytewiseText s.toList := by
  rw [bytewise, Encoding.toUtf8_eq, List.map_flatMap]
  rfl

theorem toNat_ofNat_of_lt (h : n < 0x100) : (Char.ofNat n).toNat = n := by
  rw [Char.ofNat, dif_pos (Or.inl (by omega))]
  rfl

theorem ofNat_byte (h : n < 0x100) :
    Char.ofNat (Encoding.byte n).toNat = Char.ofNat n := by
  rw [Encoding.toNat_byte h]

theorem toNat_of_mem_highChars (h : c ∈ highChars) :
    0x80 ≤ c.toNat ∧ c.toNat < 0x100 := by
  obtain ⟨n, hn, rfl⟩ := List.mem_map.mp h
  rw [List.mem_range] at hn
  rw [toNat_ofNat_of_lt (by omega)]
  omega

theorem ofNat_byte_mem_highChars (hlow : 0x80 ≤ n) (hhigh : n < 0x100) :
    Char.ofNat (Encoding.byte n).toNat ∈ highChars := by
  rw [ofNat_byte hhigh]
  exact List.mem_map.mpr ⟨n - 0x80, List.mem_range.mpr (by omega), by rw [Nat.add_sub_cancel' hlow]⟩

theorem byteChars_of_ascii (h : c.toNat < 0x80) : byteChars c = [c] := by
  rw [byteChars, Encoding.utf8Bytes, if_pos h, List.map_singleton, ofNat_byte (by omega),
    Char.ofNat_toNat]

/-- A character beyond ASCII has several bytes, none of which is an ASCII character. -/
theorem exists_byteChars (h : ¬ c.toNat < 0x80) :
    ∃ b bs, byteChars c = b :: bs ∧ b ∈ highChars ∧ ∀ x ∈ bs, x ∈ highChars := by
  have hbound : c.toNat < 0x110000 := by
    rcases c.valid with hlow | ⟨-, hhigh⟩
    · exact Nat.lt_trans hlow (by decide)
    · exact hhigh
  have hbyte : ∀ n, 0x80 ≤ n → n < 0x100 → Char.ofNat (Encoding.byte n).toNat ∈ highChars :=
    fun n hlow hhigh => ofNat_byte_mem_highChars hlow hhigh
  rw [byteChars, Encoding.utf8Bytes, if_neg h]
  split
  · exact ⟨_, _, rfl, hbyte _ (by omega) (by omega),
      List.forall_mem_singleton.mpr (hbyte _ (by omega) (by omega))⟩
  · split
    · exact ⟨_, _, rfl, hbyte _ (by omega) (by omega), List.forall_mem_cons.mpr
        ⟨hbyte _ (by omega) (by omega), List.forall_mem_singleton.mpr
          (hbyte _ (by omega) (by omega))⟩⟩
    · exact ⟨_, _, rfl, hbyte _ (by omega) (by omega), List.forall_mem_cons.mpr
        ⟨hbyte _ (by omega) (by omega), List.forall_mem_cons.mpr
          ⟨hbyte _ (by omega) (by omega), List.forall_mem_singleton.mpr
            (hbyte _ (by omega) (by omega))⟩⟩⟩

theorem bytewiseText_append (u v : List Char) :
    bytewiseText (u ++ v) = bytewiseText u ++ bytewiseText v :=
  List.flatMap_append

theorem bytewiseText_of_ascii (h : IsAscii text) : bytewiseText text = text := by
  induction text with
  | nil => rfl
  | cons c rest ih =>
    rw [IsAscii, List.forall_mem_cons] at h
    rw [bytewiseText, List.flatMap_cons, byteChars_of_ascii h.1]
    exact congrArg (c :: ·) (ih h.2)

/-- ASCII characters are kept, and characters beyond ASCII stand in the place of others. -/
theorem recast_bytewiseText (text : List Char) : Recast highChars text (bytewiseText text) := by
  have hmade : ∀ {bs t t' : List Char}, (∀ x ∈ bs, x ∈ highChars) → Recast highChars t t' →
      Recast highChars t (bs ++ t') := by
    intro bs t t' hbs h
    induction bs with
    | nil => exact h
    | cons b bs ih =>
      rw [List.forall_mem_cons] at hbs
      exact .make hbs.1 [] (ih hbs.2)
  induction text with
  | nil => exact .nil
  | cons c rest ih =>
    rw [bytewiseText, List.flatMap_cons]
    by_cases hc : c.toNat < 0x80
    · rw [byteChars_of_ascii hc]
      exact .keep c ih
    · obtain ⟨b, bs, hbytes, hb, hbs⟩ := exists_byteChars hc
      rw [hbytes]
      exact .make hb [c] (hmade hbs ih)

/-- An ASCII text is found in what is read byte by byte only where it was before. -/
theorem not_infix_bytewiseText {part text : List Char} (h : ¬ part <:+: text)
    (hpart : IsAscii part) : ¬ part <:+: bytewiseText text := by
  refine fun hwithin => h ((recast_bytewiseText text).infix_of (fun c hc hhigh => ?_) hwithin)
  exact absurd (hpart c hc) (Nat.not_lt.mpr (toNat_of_mem_highChars hhigh).1)

theorem not_mem_bytewiseText (h : c ∉ text) (hc : c.toNat < 0x80) :
    c ∉ bytewiseText text := fun hmem =>
  ((recast_bytewiseText text).mem hmem).elim h fun hhigh =>
    absurd hc (Nat.not_lt.mpr (toNat_of_mem_highChars hhigh).1)

theorem isValue_bytewiseText {quote : Char} (hquote : quote.toNat < 0x80) {value : List Char}
    (h : IsValue quote value) : IsValue quote (bytewiseText value) := by
  intro c hc
  rcases (recast_bytewiseText value).mem hc with hc | hc
  · exact h c hc
  · obtain ⟨hlow, hhigh⟩ := toNat_of_mem_highChars hc
    refine ⟨?_, ?_, ?_⟩
    · rintro rfl
      omega
    · rintro rfl
      revert hlow
      decide
    · have hne : c.toNat ≠ 0xFFFE ∧ c.toNat ≠ 0xFFFF := by omega
      simp only [isLegal, Bool.or_eq_true, Bool.and_eq_true, Nat.ble_eq, bne_iff_ne, ne_eq]
      exact .inr ⟨⟨by omega, hne.1⟩, hne.2⟩

/-! ## The encoding -/

def utf8Names : List String := ["utf-8", "utf8"]

/-- The names of the encoding with one byte for each of the first 256 characters. -/
def latinNames : List String := ["iso-8859-1", "iso-latin-1", "iso latin 1", "latin1", "latin-1"]

def asciiNames : List String := ["us-ascii", "ascii"]

/-- Whether a document with this declaration can be read. -/
def isKnownEncoding (name : Option String) : Bool :=
  name.all fun n => decide (n ∈ utf8Names ∨ n ∈ latinNames ∨ n ∈ asciiNames)

/-- Whether a document with this declaration is read byte by byte. -/
def isBytewise (name : Option String) : Bool := name.any fun n => decide (n ∈ latinNames)

/-- A text is read as it stands or byte by byte or, if its encoding is unknown, not at all. -/
theorem decodeDeclared_ofList (hpairs : pairedOrder? text = none)
    (hascii : ∀ name ∈ declaredEncoding? text, name ∈ asciiNames → IsAscii text) :
    decodeDeclared (String.ofList text) =
      if isKnownEncoding (declaredEncoding? text) then
        some (if isBytewise (declaredEncoding? text) then bytewiseText text else text)
      else none := by
  have hutf8 : ∀ n ∈ utf8Names, n ∉ latinNames := by decide
  rw [decodeDeclared, String.toList_ofList, hpairs]
  cases hdeclared : declaredEncoding? text with
  | none => rfl
  | some name =>
    have hascii := hascii name hdeclared
    rw [isKnownEncoding, isBytewise, Option.all_some, Option.any_some]
    change (if name ∈ utf8Names then some text
      else if name ∈ latinNames then some (bytewise (String.ofList text))
      else if decide (name ∈ asciiNames) && text.all (fun c => Nat.blt c.toNat 0x80) then some text
      else none) = _
    by_cases h8 : name ∈ utf8Names
    · rw [if_pos h8, if_pos (decide_eq_true (.inl h8)), if_neg (by simpa using hutf8 name h8)]
    rw [if_neg h8]
    by_cases hlatin : name ∈ latinNames
    · rw [if_pos hlatin, if_pos (decide_eq_true (.inr (.inl hlatin))),
        if_pos (decide_eq_true hlatin), bytewise_eq, String.toList_ofList]
    rw [if_neg hlatin]
    by_cases hplain : name ∈ asciiNames
    · have hall : text.all (fun c => Nat.blt c.toNat 0x80) = true :=
        List.all_eq_true.mpr fun c hc => Nat.blt_eq.mpr (hascii hplain c hc)
      rw [hall, if_pos (by simpa using hplain), if_pos (decide_eq_true (.inr (.inr hplain))),
        if_neg (by simpa using hlatin)]
    · rw [if_neg (by simp [hplain]), if_neg (by simp [h8, hlatin, hplain])]

/-- The encoding that a piece of markup names if it stands at the head of a document. -/
def Mark.encoding? : Mark → Option String
  | instruction target space text =>
    if target = ['x', 'm', 'l'] then declaredEncoding? (instruction target space text).text
    else none
  | _ => none

theorem declaredEncoding?_of_not_prefix (h : ¬ ['<', '?', 'x', 'm', 'l'] <+: text) :
    declaredEncoding? text = none := by
  rw [declaredEncoding?, if_neg]
  simp only [String.reduceToList, Bool.and_eq_true, List.isPrefixOf_iff_prefix]
  exact fun hand => h hand.1

/-- What a declaration names does not depend on what follows its mark. -/
theorem declaredEncoding?_append {body : List Char} (hbody : '>' ∉ body) (tail : List Char) :
    declaredEncoding? (['<', '?', 'x', 'm', 'l'] ++ body ++ (['?'] ++ ['>'] ++ tail)) =
      declaredEncoding? (['<', '?', 'x', 'm', 'l'] ++ body ++ (['?'] ++ ['>'] ++ [])) := by
  have hmark : '>' ∉ ['<', '?', 'x', 'm', 'l'] ++ body := by simpa using hbody
  have hsplit : ∀ tail, splitAt? ['?', '>'] (['<', '?', 'x', 'm', 'l'] ++ body ++
      (['?'] ++ ['>'] ++ tail)) = some (['<', '?', 'x', 'm', 'l'] ++ body, tail) := fun tail =>
    @splitAt?_append ['?'] _ '>' (by decide) (fun h => hmark (h.subset (by simp))) tail
  have hhead : ((['<', '?', 'x', 'm', 'l'] ++ body ++ (['?'] ++ ['>'] ++ tail)).drop 5).head? =
      ((['<', '?', 'x', 'm', 'l'] ++ body ++ (['?'] ++ ['>'] ++ [])).drop 5).head? := by
    cases body with
    | nil => rfl
    | cons c body => rfl
  have hbegin : ∀ tail, "<?xml".toList.isPrefixOf (['<', '?', 'x', 'm', 'l'] ++ body ++
      (['?'] ++ ['>'] ++ tail)) = true := fun tail => by simp
  rw [declaredEncoding?, declaredEncoding?, hsplit, hsplit, hhead, hbegin, hbegin]
  rfl

/-- What an instruction names at the head of a document does not depend on what follows. -/
theorem declaredEncoding?_instruction {target space text : List Char}
    (h : (Mark.instruction target space text).WellFormed) (tail : List Char) :
    declaredEncoding? ((Mark.instruction target space text).text ++ tail) =
      (Mark.instruction target space text).encoding? := by
  have htaken := takeName_instruction h tail
  obtain ⟨-, hspace, -, -, -, hdeclaration⟩ := h
  rw [Mark.encoding?]
  split
  · rename_i hxml
    subst hxml
    have hbody : '>' ∉ space ++ text := by
      rw [List.mem_append, not_or]
      exact ⟨fun hmem => absurd (hspace _ hmem) (by decide),
        fun hmem => absurd (hdeclaration rfl _ hmem) (by decide)⟩
    have happend := declaredEncoding?_append hbody tail
    simpa [Mark.text] using happend
  · rename_i hother
    have htext : (Mark.instruction target space text).text ++ tail =
        '<' :: '?' :: (target ++ (space ++ (text ++ '?' :: '>' :: tail))) := by
      simp [Mark.text]
    rw [htext, declaredEncoding?, if_neg]
    intro hand
    simp only [String.reduceToList, Bool.and_eq_true, List.isPrefixOf_iff_prefix,
      List.cons_prefix_cons, true_and] at hand
    obtain ⟨⟨rest, hrest⟩, hblank⟩ := hand
    -- the name that is read there would be that of a declaration
    have hxml : takeName (['x', 'm', 'l'] ++ rest) = (['x', 'm', 'l'], rest) := by
      refine takeName_append (by decide) fun c hc => isNameChar_of_isSpace ?_
      rw [← hrest] at hblank
      simpa [Option.mem_def.mp hc] using hblank
    rw [hrest, htaken] at hxml
    exact hother (congrArg Prod.fst hxml)

/-! ## Documents read byte by byte -/

/-- An attribute whose value is read byte by byte. -/
def WrittenAttribute.inBytes (a : WrittenAttribute) : WrittenAttribute :=
  { a with value := bytewiseText a.value }

def StartTag.inBytes (t : StartTag) : StartTag :=
  { t with attributes := t.attributes.map WrittenAttribute.inBytes }

/-- A piece of markup read byte by byte; its names are left as they are. -/
def Mark.inBytes : Mark → Mark
  | start tag => start tag.inBytes
  | stop name space => stop name space
  | literal text => literal (bytewiseText text)
  | comment text => comment (bytewiseText text)
  | instruction target space text => instruction target space (bytewiseText text)
  | doctype text => doctype (bytewiseText text)

def Segment.inBytes (s : Segment) : Segment := ⟨s.mark.inBytes, bytewiseText s.after⟩

def Document.inBytes (d : Document) : Document where
  lead := d.lead
  prolog := d.prolog.map Segment.inBytes
  root := d.root.inBytes
  after := bytewiseText d.after
  segments := d.segments.map Segment.inBytes

theorem WrittenAttribute.ascii_quote (ha : a.WellFormed) :
    a.quote.toNat < 0x80 := by
  rcases ha.quote with h | h
  all_goals
    rw [h]
    decide

theorem WrittenAttribute.WellFormed.inBytes (ha : a.WellFormed) :
    a.inBytes.WellFormed :=
  ⟨ha.lead, ha.name, ha.blanks, ha.quote, isValue_bytewiseText (ascii_quote ha) ha.value⟩

theorem WrittenAttribute.text_inBytes (ha : a.WellFormed)
    (hascii : IsAscii a.name) : a.inBytes.text = bytewiseText a.text := by
  have hopening : IsAscii a.opening := by
    simp only [IsAscii, WrittenAttribute.opening, List.forall_mem_append, List.forall_mem_cons]
    exact ⟨isAscii_of_isBlank ha.lead.2, hascii, isAscii_of_isBlank ha.blanks.1, by decide,
      isAscii_of_isBlank ha.blanks.2⟩
  have hquote : IsAscii [a.quote] := List.forall_mem_singleton.mpr (ascii_quote ha)
  have htext : a.text = a.opening ++ ([a.quote] ++ (a.value ++ [a.quote])) := rfl
  rw [htext, bytewiseText_append, bytewiseText_append, bytewiseText_append,
    bytewiseText_of_ascii hopening, bytewiseText_of_ascii hquote]
  rfl

theorem StartTag.WellFormed.inBytes {t : StartTag} (ht : t.WellFormed) : t.inBytes.WellFormed :=
  ⟨ht.name, List.forall_mem_map.mpr fun a ha => (ht.attributes a ha).inBytes, ht.space⟩

theorem StartTag.text_inBytes {t : StartTag} (ht : t.WellFormed) (hascii : AsciiNames (.start t)) :
    t.inBytes.text = bytewiseText t.text := by
  have hending : IsAscii (t.space ++ t.ending) := by
    refine List.forall_mem_append.mpr ⟨isAscii_of_isBlank ht.space, ?_⟩
    rw [StartTag.ending]
    split <;> decide
  have hattributes : ∀ attributes : List WrittenAttribute, attributes ⊆ t.attributes →
      (attributes.map WrittenAttribute.inBytes).flatMap WrittenAttribute.text =
        bytewiseText (attributes.flatMap WrittenAttribute.text) := by
    intro attributes hmem
    induction attributes with
    | nil => rfl
    | cons a attributes ih =>
      rw [List.cons_subset] at hmem
      rw [List.map_cons, List.flatMap_cons, List.flatMap_cons, bytewiseText_append, ih hmem.2,
        WrittenAttribute.text_inBytes (ht.attributes a hmem.1) (hascii.2 a hmem.1)]
  have hname : IsAscii ('<' :: t.name) := List.forall_mem_cons.mpr ⟨by decide, hascii.1⟩
  rw [StartTag.text, StartTag.text, StartTag.inner, StartTag.inner, ← List.cons_append,
    ← List.cons_append, bytewiseText_append, bytewiseText_append, bytewiseText_of_ascii hname,
    bytewiseText_of_ascii hending]
  exact congrArg (fun x => '<' :: t.name ++ (x ++ (t.space ++ t.ending)))
    (hattributes t.attributes fun a ha => ha)

namespace Mark

variable {m : Mark}

theorem WellFormed.inBytes (hm : m.WellFormed) : m.inBytes.WellFormed := by
  cases m with
  | start t => exact StartTag.WellFormed.inBytes hm
  | stop name space => exact hm
  | literal text => exact not_infix_bytewiseText hm (by decide)
  | comment text => exact not_infix_bytewiseText hm (by decide)
  | instruction target space text =>
    obtain ⟨htarget, hspace, hempty, hhead, hmark, hdeclaration⟩ := hm
    refine ⟨htarget, hspace, fun h => ?_, fun c hc => ?_, not_infix_bytewiseText hmark (by decide),
      fun hxml => ?_⟩
    · rw [hempty h]
      rfl
    · rcases (recast_bytewiseText text).head? hc with hhigh | hold
      · rw [Bool.eq_false_iff]
        exact fun hblank => absurd (ascii_of_isSpace hblank)
          (Nat.not_lt.mpr (toNat_of_mem_highChars hhigh).1)
      · exact hhead c hold
    · rw [bytewiseText_of_ascii fun c hc => ascii_of_isDeclarationChar (hdeclaration hxml c hc)]
      exact hdeclaration hxml
  | doctype text =>
    exact ⟨not_mem_bytewiseText hm.1 (by decide), not_mem_bytewiseText hm.2 (by decide)⟩

theorem text_inBytes (hm : m.WellFormed) (hascii : AsciiNames m) :
    m.inBytes.text = bytewiseText m.text := by
  -- a text between two ASCII texts
  have hbetween : ∀ before text after : List Char, IsAscii before → IsAscii after →
      bytewiseText (before ++ (text ++ after)) = before ++ (bytewiseText text ++ after) := by
    intro before text after hbefore hafter
    rw [bytewiseText_append, bytewiseText_append, bytewiseText_of_ascii hbefore,
      bytewiseText_of_ascii hafter]
  cases m with
  | start t => exact StartTag.text_inBytes hm hascii
  | stop name space =>
    have hstop : IsAscii (Mark.text (.stop name space)) := by
      simp only [IsAscii, Mark.text, List.forall_mem_cons, List.forall_mem_append]
      exact ⟨by decide, by decide, hascii, isAscii_of_isBlank hm.2, by decide, by simp⟩
    exact (bytewiseText_of_ascii hstop).symm
  | literal text => exact (hbetween _ text _ (by decide) (by decide)).symm
  | comment text => exact (hbetween _ text _ (by decide) (by decide)).symm
  | instruction target space text =>
    have hopening : IsAscii ('<' :: '?' :: (target ++ space)) := by
      simp only [IsAscii, List.forall_mem_cons, List.forall_mem_append]
      exact ⟨by decide, by decide, hascii, isAscii_of_isBlank hm.2.1⟩
    have hsplit : ∀ t, (Mark.instruction target space t).text =
        '<' :: '?' :: (target ++ space) ++ (t ++ ['?', '>']) := fun t => by simp [Mark.text]
    rw [hsplit, hbetween _ text _ hopening (by decide)]
    exact hsplit _
  | doctype text => exact (hbetween _ text _ (by decide) (by decide)).symm

theorem beforeRoot_inBytes (m : Mark) : m.inBytes.beforeRoot = m.beforeRoot := by
  cases m <;> rfl

theorem withinRoot_inBytes (m : Mark) : m.inBytes.withinRoot = m.withinRoot := by
  cases m <;> rfl

end Mark

theorem text_segments_inBytes {segments : List Segment}
    (h : ∀ s ∈ segments, s.mark.WellFormed ∧ AsciiNames s.mark) :
    (segments.map Segment.inBytes).flatMap Segment.text =
      bytewiseText (segments.flatMap Segment.text) := by
  induction segments with
  | nil => rfl
  | cons s segments ih =>
    obtain ⟨⟨hmark, hascii⟩, hrest⟩ := List.forall_mem_cons.mp h
    rw [List.map_cons, List.flatMap_cons, List.flatMap_cons, ih hrest, bytewiseText_append,
      Segment.text, Segment.text, bytewiseText_append, ← Mark.text_inBytes hmark hascii]
    rfl

namespace Document

variable {d : Document}

theorem WellFormed.inBytes (hd : d.WellFormed) : d.inBytes.WellFormed where
  lead := hd.lead
  prolog := List.forall_mem_map.mpr fun s hs => by
    obtain ⟨hbefore, hmark, hblank⟩ := hd.prolog s hs
    have hafter : bytewiseText s.after = s.after :=
      bytewiseText_of_ascii (isAscii_of_isBlank hblank)
    exact ⟨(Mark.beforeRoot_inBytes s.mark).trans hbefore, hmark.inBytes,
      (congrArg IsBlank hafter).mpr hblank⟩
  root := hd.root.inBytes
  after := not_mem_bytewiseText hd.after (by decide)
  segments := List.forall_mem_map.mpr fun s hs => by
    obtain ⟨hmark, hwithin, hafter⟩ := hd.segments s hs
    exact ⟨hmark.inBytes, (Mark.withinRoot_inBytes s.mark).trans hwithin,
      not_mem_bytewiseText hafter (by decide)⟩

theorem text_inBytes (hd : d.WellFormed) (hascii : HasAsciiNames d) :
    d.inBytes.text = bytewiseText d.text := by
  have hprolog := text_segments_inBytes fun s hs => ⟨(hd.prolog s hs).2.1, hascii.prolog s hs⟩
  have hsegments := text_segments_inBytes fun s hs => ⟨(hd.segments s hs).1, hascii.segments s hs⟩
  have htext : d.text = d.lead ++ (d.prolog.flatMap Segment.text ++
      (d.root.text ++ (d.after ++ d.segments.flatMap Segment.text))) := rfl
  rw [htext, bytewiseText_append, bytewiseText_append, bytewiseText_append, bytewiseText_append,
    bytewiseText_of_ascii (isAscii_of_isBlank hd.lead), ← hprolog, ← hsegments,
    ← StartTag.text_inBytes hd.root hascii.root]
  rfl

end Document

end DesignAudit.Markup
