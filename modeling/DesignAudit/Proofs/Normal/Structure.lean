import DesignAudit.Proofs.Markup.Alike
import DesignAudit.Proofs.Markup.Reader
import DesignAudit.Proofs.Markup.Related
import DesignAudit.Proofs.Normal.Division

/-!
# What the normal form does to the structure of a document

The normal form is made from the characters of a document, markup and text alike. It leaves the
structure of the tree alone as long as markup is sheltered from it (`structure_kept`): no attribute
value holds a typographic quote of the kind it is written in, no joiner follows a piece of markup, a
quote or the mark of a remark, no instruction ends with a question mark before its mark, and the
names of namespaces and a document type declaration are in their normal form. Where an attribute
value does hold such a quote, the value ends there, and elements are lost (`titled_structure_lost`).

For a sheltered document, the normal form of each piece of markup is a piece of markup that is like
it (`exists_normalised_mark`), and the pieces can be treated one by one, so that the normal form of
the document is a document that is like it (`exists_normalised_document`), and has the normal forms of
its values and texts (`exists_related_document`).
-/

namespace DesignAudit.Normal

open Markup Text

/-! ## Sheltered documents -/

/-- A text that does not begin with a joiner. -/
def BeginsApart (s : List Char) : Prop := ∀ c ∈ s.head?, isJoiner c = false

/-- The normal form of an attribute is an attribute: its value does not begin with a joiner, holds
no typographic quote of its own kind, and stays as it is if it is the name of a namespace. -/
structure ShelteredAttribute (a : WrittenAttribute) : Prop where
  begins : BeginsApart a.value
  quote : ∀ c ∈ a.value, plainQuote c ≠ a.quote
  named : (declaredPrefix? a.name).isSome = true →
    normalised (a.quote :: a.value) = a.quote :: a.value

/-- The normal form of a piece of markup is a piece of markup. -/
def ShelteredMark : Mark → Prop
  | .start tag => ∀ a ∈ tag.attributes, ShelteredAttribute a
  | .stop _ _ => True
  | .literal text => BeginsApart text
  | .comment text => BeginsApart text
  | .instruction _ _ text => BeginsApart text ∧ text.getLast? ≠ some '?'
  | .doctype text => normalised (Mark.doctype text).text = (Mark.doctype text).text

/-- A document whose markup is sheltered from the normal form. -/
structure Sheltered (d : Document) : Prop where
  prolog : ∀ s ∈ d.prolog, ShelteredMark s.mark
  root : ShelteredMark (.start d.root)
  after : BeginsApart d.after
  segments : ∀ s ∈ d.segments, ShelteredMark s.mark ∧ BeginsApart s.after

instance (s : List Char) : Decidable (BeginsApart s) := inferInstanceAs (Decidable (∀ _ ∈ _, _))

instance (a : WrittenAttribute) : Decidable (ShelteredAttribute a) :=
  decidable_of_iff (BeginsApart a.value ∧ (∀ c ∈ a.value, plainQuote c ≠ a.quote) ∧
      ((declaredPrefix? a.name).isSome = true →
        normalised (a.quote :: a.value) = a.quote :: a.value))
    ⟨fun ⟨hbegins, hquote, hnamed⟩ => ⟨hbegins, hquote, hnamed⟩,
      fun h => ⟨h.begins, h.quote, h.named⟩⟩

instance : (m : Mark) → Decidable (ShelteredMark m)
  | .start _ => inferInstanceAs (Decidable (∀ _ ∈ _, _))
  | .stop _ _ => inferInstanceAs (Decidable True)
  | .literal text => inferInstanceAs (Decidable (BeginsApart text))
  | .comment text => inferInstanceAs (Decidable (BeginsApart text))
  | .instruction _ _ _ => inferInstanceAs (Decidable (_ ∧ _))
  | .doctype _ => inferInstanceAs (Decidable (_ = _))

instance (d : Document) : Decidable (Sheltered d) :=
  decidable_of_iff ((∀ s ∈ d.prolog, ShelteredMark s.mark) ∧ ShelteredMark (.start d.root) ∧
      BeginsApart d.after ∧ ∀ s ∈ d.segments, ShelteredMark s.mark ∧ BeginsApart s.after)
    ⟨fun ⟨hprolog, hroot, hafter, hsegments⟩ => ⟨hprolog, hroot, hafter, hsegments⟩,
      fun h => ⟨h.prolog, h.root, h.after, h.segments⟩⟩

/-! ## Characters of markup -/

/-- A character that the normal form leaves as it is, whatever stands around it. -/
def IsPlainChar (c : Char) : Prop := c.toNat < 0x80 ∧ c ∉ quotes ∧ c ≠ '?'

instance (c : Char) : Decidable (IsPlainChar c) := inferInstanceAs (Decidable (_ ∧ _ ∧ _))

theorem normalised_of_isPlainChar {text : List Char} (h : ∀ c ∈ text, IsPlainChar c) :
    normalised text = text :=
  normalised_of_plain (fun c hc => ⟨(h c hc).1, (h c hc).2.1⟩) fun hwithin =>
    (h '?' (hwithin.subset List.mem_cons_self)).2.2 rfl

variable {c quote : Char} {t : StartTag}

theorem isPlainChar_of_isSpace (h : isSpace c = true) : IsPlainChar c := by
  rcases isSpace_cases h with rfl | rfl | rfl | rfl
  all_goals exact ⟨by decide, by decide, by decide⟩

theorem isPlainChar_of_isNameChar (hascii : c.toNat < 0x80) (h : isNameChar c = true) :
    IsPlainChar c := by
  have hquotes : ∀ q ∈ quotes, isNameChar q = false := by decide
  refine ⟨hascii, fun hmem => ?_, ?_⟩
  · rw [hquotes c hmem] at h
    cases h
  · rintro rfl
    revert h
    decide

theorem isPlainChar_of_isName {name : List Char} (hname : isName name = true)
    (hascii : IsAscii name) : ∀ c ∈ name, IsPlainChar c := by
  obtain ⟨-, -, -, -, hchars⟩ := exists_of_isName hname
  exact fun c hc => isPlainChar_of_isNameChar (hascii c hc) (hchars c hc)

/-- A text can be divided before white space. -/
theorem normalised_append_of_isSpace {u v : List Char} (hv : v.head?.any isSpace = true) :
    normalised (u ++ v) = normalised u ++ normalised v := by
  refine normalised_append (fun b hb => ?_) fun h => ?_
  · rw [Option.mem_def.mp hb] at hv
    rcases isSpace_cases hv with rfl | rfl | rfl | rfl <;> decide
  · rw [h] at hv
    cases hv

theorem plainQuote_cases (c : Char) : plainQuote c = c ∨ plainQuote c ∈ quotes := by
  cases h : plainQuotes.lookup c with
  | none => exact .inl (plainQuote_of_lookup h)
  | some q =>
    right
    rw [plainQuote, h]
    exact mem_quotes_of_lookup h

/-- A text is the normal form of another one, which stands by itself or behind a quote. -/
def IsNormalOf (v' v : List Char) : Prop :=
  normalised v = v' ∨ ∃ q ∈ quotes, normalised (q :: v) = q :: v'

/-! ## Attributes -/

/-- The normal form of a value in quotes is a value in the same quotes. -/
theorem exists_normalised_value (hquote : quote ∈ quotes) {value : List Char}
    (hvalue : IsValue quote value) (hbegins : BeginsApart value)
    (hsheltered : ∀ c ∈ value, plainQuote c ≠ quote) :
    ∃ value', normalised (quote :: value) = quote :: value' ∧ IsValue quote value' := by
  have hchar : ∀ q ∈ quotes, q.toNat < 0x80 ∧ isKey q = false ∧ q ≠ '?' ∧ q ≠ ' ' ∧ q ≠ '+' ∧
      q ≠ '<' ∧ isLegal q = true := by decide
  obtain ⟨hascii, hkey, hquestion, hspace, hplus, -, -⟩ := hchar quote hquote
  have hkept : ¬ ['?', '?'] <+: quote :: scanned category value := fun h =>
    hquestion (List.cons_prefix_cons.mp h).1.symm
  generalize hmiddle :
    (replaceParts ['?', '?'] ['+'] (scanned category value)).map plainQuote = middle
  have hform : normalised (quote :: value) = spaced edges (quote :: middle) := by
    rw [normalised_eq, scanned_cons_of_ascii hascii hkey hbegins, replaceParts_cons hkept,
      List.map_cons, plainQuote_of_ascii hascii, hmiddle]
  -- what stands between the quotes is an old character, a plain quote for one, or a new one
  have hspaced : IsValue quote (spaced edges middle) := by
    intro c hc
    rcases (recast_spaced middle).mem hc with hc | hc
    · rw [← hmiddle] at hc
      obtain ⟨x, hx, rfl⟩ := List.mem_map.mp hc
      have hne : ['?', '?'] ≠ [] := List.cons_ne_nil _ _
      rcases ((recast_scanned category value).trans (recast_replaceParts hne '+' _)).mem hx with
        hx | hx
      · obtain ⟨-, hopen, hlegal⟩ := hvalue x hx
        refine ⟨hsheltered x hx, ?_⟩
        rcases plainQuote_cases x with heq | hmem
        · rw [heq]
          exact ⟨hopen, hlegal⟩
        · exact (hchar _ hmem).2.2.2.2.2
      · obtain rfl := List.mem_singleton.mp hx
        exact ⟨hplus.symm, by decide, by decide⟩
    · obtain rfl := List.mem_singleton.mp hc
      exact ⟨hspace.symm, by decide, by decide⟩
  rw [hform, spaced]
  split
  · exact ⟨' ' :: spaced edges middle, rfl,
      List.forall_mem_cons.mpr ⟨⟨hspace.symm, by decide, by decide⟩, hspaced⟩⟩
  · exact ⟨spaced edges middle, rfl, hspaced⟩

/-- The normal form of an attribute up to its second quote. -/
theorem exists_normalised_attribute {a : WrittenAttribute} (ha : a.WellFormed)
    (hascii : IsAscii a.name) (hsheltered : ShelteredAttribute a) (rest : List Char) :
    ∃ a' : WrittenAttribute, a'.WellFormed ∧ a'.quote = a.quote ∧ a'.Alike a ∧
      IsNormalOf a'.value a.value ∧ normalised (a.text ++ rest) =
        a'.opening ++ a'.quote :: (a'.value ++ normalised (a.quote :: rest)) := by
  have hquote : a.quote ∈ quotes := by simpa [quotes] using ha.quote
  have hparts : ∀ q ∈ quotes, q.toNat < 0x80 ∧ q ∉ ['/', '>', ';'] ∧ q ≠ '?' := by decide
  obtain ⟨hlow, hend, hquestion⟩ := hparts a.quote hquote
  obtain ⟨value, hform, hvalue⟩ :=
    exists_normalised_value hquote ha.value hsheltered.begins hsheltered.quote
  have hopening : normalised a.opening = a.opening := by
    refine normalised_of_isPlainChar fun c hc => ?_
    simp only [WrittenAttribute.opening, List.mem_append, List.mem_cons] at hc
    rcases hc with hc | hc | hc | rfl | hc
    · exact isPlainChar_of_isSpace (ha.lead.2 c hc)
    · exact isPlainChar_of_isName ha.name hascii c hc
    · exact isPlainChar_of_isSpace (ha.blanks.1 c hc)
    · exact ⟨by decide, by decide, by decide⟩
    · exact isPlainChar_of_isSpace (ha.blanks.2 c hc)
  have hcut : ∀ (u v : List Char), normalised (u ++ a.quote :: v) =
      normalised u ++ normalised (a.quote :: v) := by
    intro u v
    refine normalised_append (fun b hb => ?_) fun h => absurd (Option.some.inj h) hquestion
    obtain rfl := Option.some.inj hb
    exact ⟨hlow, hend⟩
  refine ⟨{ a with value }, ⟨ha.lead, ha.name, ha.blanks, ha.quote, hvalue⟩, rfl, ?_,
    .inr ⟨a.quote, hquote, hform⟩, ?_⟩
  · refine ⟨rfl, fun hnamed => ⟨rfl, ?_⟩⟩
    rw [hsheltered.named hnamed] at hform
    exact (List.cons.inj hform).2.symm
  · have htext : a.text ++ rest = a.opening ++ a.quote :: (a.value ++ a.quote :: rest) := by
      simp [WrittenAttribute.text]
    rw [htext, hcut, hopening, ← List.cons_append, hcut, hform]
    rfl

theorem normalised_quote (hquote : quote ∈ quotes) :
    normalised [quote] = [quote] := by
  have hparts : ∀ q ∈ quotes, q.toNat < 0x80 ∧ ¬ ['?', '?'] <:+: [q] ∧
      ∀ e ∈ edges, ¬ e <:+: [q] := by decide
  obtain ⟨hlow, hlost, hedges⟩ := hparts quote hquote
  exact normalised_of_ascii (List.forall_mem_singleton.mpr hlow) hlost hedges

/-- Behind the second quote of an attribute, the end of an empty-element tag is put off by a
space. -/
theorem normalised_quote_ending (hquote : quote ∈ quotes) (t : StartTag) :
    normalised (quote :: t.ending) =
      quote :: ((if t.closed then [' '] else []) ++ t.ending) := by
  have hclosed : ∀ q ∈ quotes, normalised [q, '/', '>'] = [q, ' ', '/', '>'] := by decide +kernel
  have hopen : ∀ q ∈ quotes, normalised [q, '>'] = [q, '>'] := by decide +kernel
  rw [StartTag.ending]
  cases t.closed with
  | true => exact hclosed quote hquote
  | false => exact hopen quote hquote

theorem isPlainChar_of_mem_end (hspace : IsBlank t.space) :
    ∀ c ∈ t.space ++ t.ending, IsPlainChar c := by
  have hends : ∀ c ∈ ['/', '>'], IsPlainChar c := by
    simp only [List.forall_mem_cons, List.not_mem_nil, false_imp_iff, implies_true, and_true]
    exact ⟨⟨by decide, by decide, by decide⟩, ⟨by decide, by decide, by decide⟩⟩
  intro c hc
  rcases List.mem_append.mp hc with hc | hc
  · exact isPlainChar_of_isSpace (hspace c hc)
  · rw [StartTag.ending] at hc
    split at hc
    · exact hends c hc
    · exact hends c (List.mem_cons_of_mem '/' hc)

/-- The normal form of all behind the name of a start tag. -/
theorem exists_normalised_inner (ht : t.WellFormed) (hascii : ∀ a ∈ t.attributes, IsAscii a.name)
    (hsheltered : ∀ a ∈ t.attributes, ShelteredAttribute a) :
    ∃ t' : StartTag, t'.WellFormed ∧ t'.Related IsNormalOf t ∧
      List.Forall₂ WrittenAttribute.Alike t'.attributes t.attributes ∧
      normalised t.inner = t'.inner := by
  obtain ⟨name, attributes, space, closed⟩ := t
  induction attributes with
  | nil =>
    exact ⟨⟨name, [], space, closed⟩, ht, ⟨rfl, .nil, rfl⟩, .nil,
      normalised_of_isPlainChar (isPlainChar_of_mem_end ht.space)⟩
  | cons a attributes ih =>
    rw [List.forall_mem_cons] at hascii hsheltered
    have hmore : StartTag.WellFormed ⟨name, attributes, space, closed⟩ :=
      ⟨ht.name, fun b hb => ht.attributes b (List.mem_cons_of_mem a hb), ht.space⟩
    have ha := ht.attributes a List.mem_cons_self
    have hquote : a.quote ∈ quotes := by simpa [quotes] using ha.quote
    have hinner : StartTag.inner ⟨name, a :: attributes, space, closed⟩ =
        a.text ++ StartTag.inner ⟨name, attributes, space, closed⟩ := by
      simp [StartTag.inner, StartTag.ending]
    obtain ⟨a', ha', hsame, halike, hvalue, hform⟩ := exists_normalised_attribute ha hascii.1
      hsheltered.1 (StartTag.inner ⟨name, attributes, space, closed⟩)
    rcases head?_inner hmore [] with hspace | ⟨rfl, hend⟩
    · -- the rest begins with white space and is treated on its own
      obtain ⟨t', ht', ⟨-, hvalues, hclosed⟩, hattributes, hrest⟩ :=
        ih hmore hascii.2 hsheltered.2
      have hcut : normalised (a.quote :: StartTag.inner ⟨name, attributes, space, closed⟩) =
          a.quote :: t'.inner := by
        rw [List.append_nil] at hspace
        rw [← List.singleton_append, normalised_append_of_isSpace hspace,
          normalised_quote hquote, hrest]
        rfl
      refine ⟨⟨name, a' :: t'.attributes, t'.space, closed⟩,
        ⟨ht.name, List.forall_mem_cons.mpr ⟨ha', ht'.attributes⟩, ht'.space⟩,
        ⟨rfl, .cons ⟨halike.1, hvalue⟩ hvalues, rfl⟩, .cons halike hattributes, ?_⟩
      rw [hinner, hform, hcut, ← hsame, StartTag.inner, StartTag.ending, hclosed]
      simp [StartTag.inner, StartTag.ending, WrittenAttribute.text]
    · refine ⟨⟨name, [a'], if closed then [' '] else [], closed⟩,
        ⟨ht.name, List.forall_mem_singleton.mpr ha', ?_⟩,
        ⟨rfl, .cons ⟨halike.1, hvalue⟩ .nil, rfl⟩, .cons halike .nil, ?_⟩
      · cases closed with
        | true => exact fun c hc => List.mem_singleton.mp hc ▸ rfl
        | false => exact fun c hc => absurd hc List.not_mem_nil
      · rw [List.append_nil, List.append_nil] at hend
        rw [hinner, hform, hend, normalised_quote_ending hquote, ← hsame]
        simp [StartTag.inner, WrittenAttribute.text]
        rfl

/-! ## Pieces of markup -/

theorem exists_normalised_start (ht : t.WellFormed) (hascii : AsciiNames (.start t))
    (hsheltered : ShelteredMark (.start t)) :
    ∃ t' : StartTag, t'.WellFormed ∧ (Mark.start t').Alike (.start t) ∧ t'.Related IsNormalOf t ∧
      normalised t.text = t'.text := by
  have hplain : ∀ c ∈ '<' :: t.name, IsPlainChar c :=
    List.forall_mem_cons.mpr
      ⟨⟨by decide, by decide, by decide⟩, isPlainChar_of_isName ht.name hascii.1⟩
  rcases head?_inner ht [] with hspace | ⟨hnone, hend⟩
  · obtain ⟨t', ht', hrelated, hattributes, hinner⟩ :=
      exists_normalised_inner ht hascii.2 hsheltered
    refine ⟨t', ht', .start hrelated.name hattributes hrelated.closed, hrelated, ?_⟩
    rw [List.append_nil] at hspace
    rw [StartTag.text, StartTag.text, ← List.cons_append, normalised_append_of_isSpace hspace,
      normalised_of_isPlainChar hplain, hinner, hrelated.name]
    rfl
  · -- nothing stands between the name and the end
    obtain ⟨name, attributes, space, closed⟩ := t
    obtain rfl : attributes = [] := hnone
    refine ⟨⟨name, [], space, closed⟩, ht, .start rfl .nil rfl, ⟨rfl, .nil, rfl⟩,
      normalised_of_isPlainChar ?_⟩
    rw [List.append_nil, List.append_nil] at hend
    rw [StartTag.text, hend, ← List.cons_append]
    exact List.forall_mem_append.mpr
      ⟨hplain, fun c hc => isPlainChar_of_mem_end ht.space c (List.mem_append_right space hc)⟩

/-- A text between two marks of ASCII characters is treated on its own: the first mark ends with a
character that begins nothing, and the second one does not begin with the end of an edge. -/
theorem normalised_between {before text : List Char} {m b : Char} {after : List Char}
    (hbefore : ∀ c ∈ before ++ [m], IsPlainChar c) (hafter : ∀ c ∈ b :: after, IsPlainChar c)
    (hm : isKey m = false ∧ m ≠ '/') (hb : b ∉ ['/', '>', ';']) (htext : BeginsApart text) :
    normalised (before ++ [m] ++ (text ++ b :: after)) =
      before ++ [m] ++ (normalised text ++ b :: after) := by
  obtain ⟨hmascii, hmquote, hmquestion⟩ := hbefore m (by simp)
  obtain ⟨hbascii, -, hbquestion⟩ := hafter b List.mem_cons_self
  have hhead : ∀ c ∈ (text ++ b :: after).head?, isJoiner c = false := by
    intro c hc
    cases text with
    | nil => exact Option.some.inj hc ▸ isJoiner_of_ascii hbascii
    | cons x text => exact htext c hc
  have hlast : m ∉ ['?', '"', '\'', '/'] := by
    simp only [quotes, List.mem_cons, List.not_mem_nil, or_false, not_or] at hmquote ⊢
    exact ⟨hmquestion, hmquote.1, hmquote.2, hm.2⟩
  have hcut : normalised (text ++ b :: after) = normalised text ++ normalised (b :: after) := by
    refine normalised_append (fun c hc => ?_) fun h => absurd (Option.some.inj h) hbquestion
    obtain rfl := Option.some.inj hc
    exact ⟨hbascii, hb⟩
  rw [normalised_append_of_getLast (by simp) hmascii hm.1 hlast hhead,
    normalised_of_isPlainChar hbefore, hcut, normalised_of_isPlainChar hafter]

/-- What is no part of a text, and has no new characters in it, is no part of its normal form. -/
theorem not_infix_normalised_of {part text : List Char} (h : ¬ part <:+: text)
    (hpart : ∀ c ∈ part, c ∉ madeChars) : ¬ part <:+: normalised text :=
  fun hwithin => h ((recast_normalised text).infix_of hpart hwithin)

theorem head?_normalised {text : List Char} (h : (normalised text).head? = some c) :
    c = '+' ∨ ∃ b, text.head? = some b ∧ c = plainQuote b := by
  have hne : ['?', '?'] ≠ [] := List.cons_ne_nil _ _
  have hspaced : ∀ t, (spaced edges t).head? = t.head? := by
    intro t
    cases t with
    | nil => rfl
    | cons x t =>
      rw [spaced]
      split
      · rfl
      · rfl
  rw [normalised_eq, hspaced, List.head?_map] at h
  obtain ⟨b, hb, rfl⟩ := Option.map_eq_some_iff.mp h
  rcases ((recast_scanned category text).trans (recast_replaceParts hne '+' _)).head? hb with
    hplus | hhead
  · obtain rfl := List.mem_singleton.mp hplus
    exact .inl (plainQuote_of_ascii (by decide))
  · exact .inr ⟨b, hhead, rfl⟩

/-- The text of a declaration is in its normal form. -/
theorem normalised_of_isDeclarationChar {text : List Char}
    (h : ∀ c ∈ text, isDeclarationChar c = true) : normalised text = text := by
  have hsigns : ∀ c ∈ ['?', '/', ';'], isDeclarationChar c = false := by decide
  have hother : ∀ c ∈ ['?', '/', ';'], c ∉ text := by
    intro c hc hmem
    have hdeclared := h c hmem
    rw [hsigns c hc] at hdeclared
    cases hdeclared
  refine normalised_of_ascii (fun c hc => ascii_of_isDeclarationChar (h c hc))
    (fun hwithin => hother '?' (by decide) (hwithin.subset List.mem_cons_self))
    fun e he hwithin => ?_
  have hends : ∀ e ∈ edges, '/' ∈ e ∨ ';' ∈ e := by decide
  rcases hends e he with hmem | hmem
  · exact hother '/' (by decide) (hwithin.subset hmem)
  · exact hother ';' (by decide) (hwithin.subset hmem)

section Instruction

variable {target space text : List Char}

/-- The opening mark, the target and the white space of an instruction are in their normal form. -/
theorem normalised_instruction_opening (htarget : isName target = true)
    (hplain : ∀ c ∈ target ++ space, IsPlainChar c) :
    normalised (['<', '?'] ++ (target ++ space)) = ['<', '?'] ++ (target ++ space) := by
  obtain ⟨x, xs, hcons, hstart, -⟩ := exists_of_isName htarget
  have hmarks : normalised ['<', '?'] = ['<', '?'] :=
    normalised_of_ascii (by decide) (by decide) (by decide)
  have hsigns : ∀ c ∈ ['/', '>', ';'], isNameStart c = false := by decide
  have hx : (target ++ space).head? = some x := by rw [hcons]; rfl
  rw [normalised_append (fun b hb => ?_) fun h => ?_, hmarks, normalised_of_isPlainChar hplain]
  · rw [hx] at hb
    obtain rfl := Option.some.inj hb
    exact ⟨(hplain _ (by simp [hcons])).1, fun hmem => ne_of_isNameStart hstart (hsigns _ hmem) rfl⟩
  · rw [hx] at h
    exact absurd (Option.some.inj h) (ne_of_isNameStart hstart (by decide))

/-- An instruction can be divided before its text. -/
theorem normalised_instruction_text (htarget : isName target = true) (hspace : IsBlank space)
    (hempty : space = [] → text = []) (hplain : ∀ c ∈ target ++ space, IsPlainChar c)
    (hbegins : BeginsApart text) :
    normalised (['<', '?'] ++ (target ++ space) ++ (text ++ ['?', '>'])) =
      normalised (['<', '?'] ++ (target ++ space)) ++ normalised (text ++ ['?', '>']) := by
  by_cases htext : text = []
  · -- the two question marks are apart, because a target is no empty name
    obtain ⟨x, xs, hcons, -⟩ := exists_of_isName htarget
    rw [htext]
    refine normalised_append (fun b hb => ?_) fun _ h => ?_
    · obtain rfl := Option.some.inj hb
      decide
    · obtain ⟨m, hm⟩ := Option.ne_none_iff_exists'.mp
        (mt List.getLast?_eq_none_iff.mp (show target ++ space ≠ [] by simp [hcons]))
      rw [List.getLast?_append, hm, Option.some_or] at h
      exact (hplain m (List.mem_of_getLast? hm)).2.2 (Option.some.inj h)
  · -- there is white space before the text
    rcases List.eq_nil_or_concat space with hnone | ⟨s, m, rfl⟩
    · exact absurd (hempty hnone) htext
    have hmspace : isSpace m = true := hspace m (by simp)
    have hmark : isKey m = false ∧ m ∉ ['?', '"', '\'', '/'] := by
      rcases isSpace_cases hmspace with rfl | rfl | rfl | rfl <;> decide
    refine normalised_append_of_getLast (by simp [List.getLast?_append, List.getLast?_cons])
      (isPlainChar_of_isSpace hmspace).1 hmark.1 hmark.2 fun b hb => ?_
    obtain ⟨y, ys, rfl⟩ := List.exists_cons_of_ne_nil htext
    exact hbegins b hb

theorem wellFormed_normalised_instruction (hm : (Mark.instruction target space text).WellFormed) :
    (Mark.instruction target space (normalised text)).WellFormed := by
  obtain ⟨htarget, hspace, hempty, hhead, hmark, hdeclaration⟩ := hm
  refine ⟨htarget, hspace, fun h => ?_, fun c hc => ?_, not_infix_normalised_of hmark (by decide),
    fun hxml => ?_⟩
  · rw [hempty h]
    rfl
  · rcases head?_normalised hc with rfl | ⟨b, hb, rfl⟩
    · decide
    · rcases plainQuote_cases b with heq | hmem
      · rw [heq]
        exact hhead b hb
      · have hquotes : ∀ q ∈ quotes, isSpace q = false := by decide
        exact hquotes _ hmem
  · rw [normalised_of_isDeclarationChar (hdeclaration hxml)]
    exact hdeclaration hxml

theorem normalised_instruction (hm : (Mark.instruction target space text).WellFormed)
    (hascii : IsAscii target) (hbegins : BeginsApart text) (hlast : text.getLast? ≠ some '?') :
    normalised (Mark.instruction target space text).text =
      (Mark.instruction target space (normalised text)).text := by
  obtain ⟨htarget, hspace, hempty, -⟩ := hm
  have hplain : ∀ c ∈ target ++ space, IsPlainChar c := List.forall_mem_append.mpr
    ⟨isPlainChar_of_isName htarget hascii, fun c hc => isPlainChar_of_isSpace (hspace c hc)⟩
  have hclosing : normalised (text ++ ['?', '>']) = normalised text ++ ['?', '>'] := by
    have hmarks : normalised ['?', '>'] = ['?', '>'] :=
      normalised_of_ascii (by decide) (by decide) (by decide)
    rw [normalised_append (fun b hb => ?_) fun _ => hlast, hmarks]
    obtain rfl := Option.some.inj hb
    decide
  have hsplit : ∀ t, (Mark.instruction target space t).text =
      ['<', '?'] ++ (target ++ space) ++ (t ++ ['?', '>']) := fun t => by simp [Mark.text]
  rw [hsplit, normalised_instruction_text htarget hspace hempty hplain hbegins,
    normalised_instruction_opening htarget hplain, hclosing, hsplit]

end Instruction

/-- The normal form of a piece of markup is a piece of markup that is like it. -/
theorem exists_normalised_mark {m : Mark} (hm : m.WellFormed) (hascii : AsciiNames m)
    (hsheltered : ShelteredMark m) :
    ∃ m' : Mark, m'.WellFormed ∧ m'.Alike m ∧ m'.Related IsNormalOf m ∧
      normalised m.text = m'.text := by
  cases m with
  | start t =>
    obtain ⟨t', ht', halike, hrelated, htext⟩ := exists_normalised_start hm hascii hsheltered
    exact ⟨.start t', ht', halike, .start hrelated, htext⟩
  | stop name space =>
    refine ⟨.stop name space, hm, .stop name space, .stop _ _ _ _, normalised_of_isPlainChar ?_⟩
    simp only [Mark.text, List.forall_mem_cons, List.forall_mem_append]
    exact ⟨⟨by decide, by decide, by decide⟩, ⟨by decide, by decide, by decide⟩,
      isPlainChar_of_isName hm.1 hascii, fun c hc => isPlainChar_of_isSpace (hm.2 c hc),
      ⟨by decide, by decide, by decide⟩, fun c hc => absurd hc List.not_mem_nil⟩
  | literal text =>
    refine ⟨.literal (normalised text), not_infix_normalised_of hm (by decide), .literal _ _,
      .literal (.inl rfl), ?_⟩
    exact @normalised_between ['<', '!', '[', 'C', 'D', 'A', 'T', 'A'] text '[' ']' [']', '>']
      (by decide) (by decide) (by decide) (by decide) hsheltered
  | comment text =>
    refine ⟨.comment (normalised text), not_infix_normalised_of hm (by decide), .comment _ _,
      .comment _ _, ?_⟩
    exact @normalised_between ['<', '!', '-'] text '-' '-' ['-', '>']
      (by decide) (by decide) (by decide) (by decide) hsheltered
  | instruction target space text =>
    refine ⟨.instruction target space (normalised text), wellFormed_normalised_instruction hm,
      .instruction fun hxml => ?_, .instruction _ _ _ _ _ _,
      normalised_instruction hm hascii hsheltered.1 hsheltered.2⟩
    obtain ⟨-, -, -, -, -, hdeclaration⟩ := hm
    exact normalised_of_isDeclarationChar (hdeclaration hxml)
  | doctype text => exact ⟨.doctype text, hm, .doctype text text, .doctype text text, hsheltered⟩

/-! ## Documents -/

theorem getLast?_text (m : Mark) : m.text.getLast? = some '>' := by
  cases m with
  | start t =>
    obtain ⟨name, attributes, space, closed⟩ := t
    cases closed <;> simp [Mark.text, StartTag.text, StartTag.inner, StartTag.ending,
      List.getLast?_append, List.getLast?_cons]
  | stop name space => simp [Mark.text, List.getLast?_append, List.getLast?_cons]
  | literal text => simp [Mark.text, List.getLast?_append, List.getLast?_cons]
  | comment text => simp [Mark.text, List.getLast?_append, List.getLast?_cons]
  | instruction target space text => simp [Mark.text, List.getLast?_append, List.getLast?_cons]
  | doctype text => simp [Mark.text, List.getLast?_append, List.getLast?_cons]

/-- A text can be divided before a mark of a tag. -/
theorem normalised_append_of_tag {u v : List Char} (hv : v = [] ∨ v.head? = some '<') :
    normalised (u ++ v) = normalised u ++ normalised v := by
  refine normalised_append (fun b hb => ?_) fun h => ?_
  · rcases hv with rfl | hv
    · cases hb
    · rw [hv] at hb
      obtain rfl := Option.some.inj hb
      decide
  · rcases hv with rfl | hv
    · cases h
    · rw [hv] at h
      exact absurd (Option.some.inj h) (by decide)

/-- Markup, the text behind it and what follows are treated on their own. -/
theorem normalised_segment (m : Mark) {after tail : List Char} (hafter : BeginsApart after)
    (htail : tail = [] ∨ tail.head? = some '<') :
    normalised (m.text ++ (after ++ tail)) =
      normalised m.text ++ (normalised after ++ normalised tail) := by
  rw [normalised_append_of_getLast (getLast?_text m) (by decide) (by decide) (by decide)
    fun b hb => ?_, normalised_append_of_tag htail]
  cases after with
  | cons x after => exact hafter b hb
  | nil =>
    rcases htail with rfl | htail
    · cases hb
    · rw [List.nil_append, htail] at hb
      obtain rfl := Option.some.inj hb
      decide

/-- The normal form of a list of segments is a list of segments that are like them. -/
theorem exists_normalised_segments {segments : List Segment}
    (h : ∀ s ∈ segments, s.mark.WellFormed ∧ AsciiNames s.mark ∧ ShelteredMark s.mark ∧
      BeginsApart s.after) :
    ∃ segments' : List Segment,
      List.Forall₂ (fun s' s => s'.mark.WellFormed ∧ s'.mark.Alike s.mark ∧
        s'.mark.Related IsNormalOf s.mark ∧ s'.after = normalised s.after) segments' segments ∧
      normalised (segments.flatMap Segment.text) = segments'.flatMap Segment.text := by
  induction segments with
  | nil => exact ⟨[], .nil, rfl⟩
  | cons s segments ih =>
    obtain ⟨⟨hmark, hascii, hsheltered, hafter⟩, hrest⟩ := List.forall_mem_cons.mp h
    obtain ⟨segments', hsame, htext⟩ := ih hrest
    obtain ⟨mark, hwellFormed, halike, hrelated, hform⟩ :=
      exists_normalised_mark hmark hascii hsheltered
    refine ⟨⟨mark, normalised s.after⟩ :: segments',
      .cons ⟨hwellFormed, halike, hrelated, by dsimp only⟩ hsame, ?_⟩
    rw [List.flatMap_cons, Segment.text, List.append_assoc,
      normalised_segment s.mark hafter (head?_segments segments), hform, htext, List.flatMap_cons,
      Segment.text, List.append_assoc]

/-- The normal form of a sheltered document is a document that is like it, with the normal forms of its
values and texts. -/
theorem exists_related_document {d : Document} (hd : d.WellFormed) (hascii : HasAsciiNames d)
    (hsheltered : Sheltered d) :
    ∃ d' : Document, d'.WellFormed ∧ d'.Alike d ∧ d'.Related IsNormalOf d ∧
      normalised d.text = d'.text := by
  have hblank : ∀ {s : List Char}, IsBlank s → normalised s = s := fun hs =>
    normalised_of_isPlainChar fun c hc => isPlainChar_of_isSpace (hs c hc)
  have hopen : ∀ {s : List Char}, '<' ∉ s → '<' ∉ normalised s := fun hs hmem =>
    ((recast_normalised _).mem hmem).elim hs (by decide)
  obtain ⟨prolog, hprolog, hprologText⟩ := exists_normalised_segments fun s hs =>
    ⟨(hd.prolog s hs).2.1, hascii.prolog s hs, hsheltered.prolog s hs, fun c hc => by
      have hc := (hd.prolog s hs).2.2 c (List.mem_of_head? hc)
      exact isJoiner_of_ascii (ascii_of_isSpace hc)⟩
  obtain ⟨segments, hsegments, hsegmentsText⟩ := exists_normalised_segments fun s hs =>
    ⟨(hd.segments s hs).1, hascii.segments s hs, hsheltered.segments s hs⟩
  obtain ⟨root, hroot, hrootAlike, hrootRelated, hrootText⟩ :=
    exists_normalised_start hd.root hascii.root hsheltered.root
  have hsegment : normalised (d.root.text ++ d.body) =
      normalised d.root.text ++
        (normalised d.after ++ normalised (d.segments.flatMap Segment.text)) :=
    normalised_segment (.start d.root) hsheltered.after (head?_segments d.segments)
  have hafter := hopen hd.after
  generalize normalised d.after = after at hsegment hafter
  refine ⟨⟨d.lead, prolog, root, after, segments⟩,
    ⟨hd.lead, fun s' hs' => ?_, hroot, hafter, fun s' hs' => ?_⟩,
    ⟨rfl, hprolog.imp fun s' s h => h.2.1, hrootAlike, hsegments.imp fun s' s h => h.2.1⟩,
    ⟨hrootRelated, hsegments.imp fun s' s h => ⟨h.2.2.1, .inl h.2.2.2.symm⟩⟩, ?_⟩
  · obtain ⟨s, hs, hmark, halike, -, hafter⟩ := Traversal.exists_mem_of_forall₂ hprolog hs'
    obtain ⟨hbefore, -, hspace⟩ := hd.prolog s hs
    rw [hafter, hblank hspace]
    exact ⟨halike.beforeRoot_eq.trans hbefore, hmark, hspace⟩
  · obtain ⟨s, hs, hmark, halike, -, hafter⟩ := Traversal.exists_mem_of_forall₂ hsegments hs'
    obtain ⟨-, hwithin, htext⟩ := hd.segments s hs
    exact ⟨hmark, halike.withinRoot_eq.trans hwithin, hafter ▸ hopen htext⟩
  · have htag : (d.root.text ++ d.body).head? = some '<' := rfl
    have hhead : (d.prolog.flatMap Segment.text ++ (d.root.text ++ d.body)).head? = some '<' := by
      rcases head?_segments d.prolog with hnone | hsome
      · rw [hnone]
        rfl
      · rw [List.head?_append, hsome, Option.some_or]
    rw [Document.text, normalised_append_of_tag (.inr hhead), hblank hd.lead,
      normalised_append_of_tag (.inr htag), hprologText, hsegment, hrootText, hsegmentsText]
    rfl

/-- The normal form of a sheltered document is a document that is like it. -/
theorem exists_normalised_document {d : Document} (hd : d.WellFormed) (hascii : HasAsciiNames d)
    (hsheltered : Sheltered d) :
    ∃ d' : Document, d'.WellFormed ∧ d'.Alike d ∧ normalised d.text = d'.text := by
  obtain ⟨d', hd', halike, -, htext⟩ := exists_related_document hd hascii hsheltered
  exact ⟨d', hd', halike, htext⟩

/-- The normal form of an ASCII text is an ASCII text. -/
theorem isAscii_normalised {text : List Char} (h : IsAscii text) : IsAscii (normalised text) := by
  have hmade : ∀ c ∈ madeChars, c.toNat < 0x80 := by decide
  exact fun c hc => ((recast_normalised text).mem hc).elim (h c) (hmade c)

/-- **The normal form keeps the structure of a sheltered document.** A well-formed document with
ASCII names and its normal form are read as trees with the same elements and remarks in the same
nesting and order and with the same attribute names, provided that no piece of markup is open to the
replacements. There is such a tree for every encoding that can be read. -/
theorem structure_kept {d : Document} (hd : d.WellFormed) (hascii : HasAsciiNames d)
    (hencoded : d.Encoded) (hsheltered : Sheltered d) :
    (read (String.ofList (normalised d.text))).map (Option.map Node.bare) =
        (read (String.ofList d.text)).map (Option.map Node.bare) ∧
      (isKnownEncoding (declaredEncoding? d.text) = true →
        ∃ n n', read (String.ofList d.text) = .ok (some n) ∧
          read (String.ofList (normalised d.text)) = .ok (some n') ∧ n'.bare = n.bare) := by
  obtain ⟨d', hd', halike, htext⟩ := exists_normalised_document hd hascii hsheltered
  have hencoding := halike.declaredEncoding?_eq hd' hd
  have hencoded' : d'.Encoded := by
    intro name hname hplain
    rw [← htext]
    exact isAscii_normalised (hencoded name (hencoding ▸ hname) hplain)
  rw [htext]
  refine ⟨halike.bare_read hd' hd hascii hencoded' hencoded, fun hknown => ?_⟩
  obtain ⟨n, hn, hbare⟩ := Document.exists_read hd hascii hencoded hknown
  obtain ⟨n', hn', hbare'⟩ :=
    Document.exists_read hd' (halike.hasAsciiNames hascii) hencoded' (hencoding.symm ▸ hknown)
  rw [(halike.decoded hd' hd).outline_eq, hbare] at hbare'
  exact ⟨n, n', hn, hn', (Option.some.inj hbare').symm⟩

/-- An attribute behind one space. -/
def spelled (name : String) (quote : Char) (value : String) : WrittenAttribute :=
  ⟨[' '], name.toList, [], [], quote, value.toList⟩

/-- A document with a declaration, a document type, a namespace, typographic quotes in a comment and
in a value of the other kind, an empty element, a pictograph, literal text and an instruction. -/
def annotated : Document where
  lead := []
  prolog :=
    [⟨.instruction "xml".toList [' '] "version=\"1.0\" encoding=\"UTF-8\"".toList, ['\n']⟩,
     ⟨.doctype " F SYSTEM \"f.dtd\"".toList, ['\n']⟩]
  root := ⟨['F'], [spelled "xmlns" '"' "u"], [], false⟩
  after := []
  segments :=
    [⟨.comment "“a”".toList, []⟩,
     ⟨.start ⟨"Layout".toList, [spelled "name" '\'' "The “big” one"], [], true⟩, "😀".toList⟩,
     ⟨.literal ['x'], []⟩,
     ⟨.instruction ['p'] [' '] ['q'], []⟩,
     ⟨.stop ['F'] [], []⟩]

theorem annotated_structure_kept :
    (annotated.WellFormed ∧ HasAsciiNames annotated ∧ annotated.Encoded ∧ Sheltered annotated) ∧
    (read (String.ofList (normalised annotated.text))).map (Option.map Node.bare) =
      (read (String.ofList annotated.text)).map (Option.map Node.bare) ∧
    ∃ n n', read (String.ofList annotated.text) = .ok (some n) ∧
      read (String.ofList (normalised annotated.text)) = .ok (some n') ∧ n'.bare = n.bare := by
  have hd : annotated.WellFormed := by decide +kernel
  have hascii : HasAsciiNames annotated := by decide +kernel
  have hencoded : annotated.Encoded := by decide +kernel
  have hsheltered : Sheltered annotated := by decide +kernel
  have hkept := structure_kept hd hascii hencoded hsheltered
  exact ⟨⟨hd, hascii, hencoded, hsheltered⟩, hkept.1, hkept.2 (by decide +kernel)⟩

/-- The document `<F><Layout name="The “big” one"><Object/></Layout><Layout name="Two"/></F>`. -/
def titled : Document where
  lead := []
  prolog := []
  root := ⟨['F'], [], [], false⟩
  after := []
  segments :=
    [⟨.start ⟨"Layout".toList, [spelled "name" '"' "The “big” one"], [], false⟩, []⟩,
     ⟨.start ⟨"Object".toList, [], [], true⟩, []⟩,
     ⟨.stop "Layout".toList [], []⟩,
     ⟨.start ⟨"Layout".toList, [spelled "name" '"' "Two"], [], true⟩, []⟩,
     ⟨.stop ['F'] [], []⟩]

def titledTree : Node :=
  plain "F" []
    [plain "Layout" [("name", "The “big” one")] [plain "Object" [] []],
     plain "Layout" [("name", "Two")] []]

/-- The tree of its normal form. -/
def brokenTree : Node :=
  plain "F" [] [plain "Layout" [("name", "The ")] [], plain "Object" [] []]

set_option maxRecDepth 20000 in
/-- The title ends at its first typographic quote, the rest of the tag is taken for text, and the
second layout is lost. -/
theorem titled_structure_lost :
    (titled.WellFormed ∧ HasAsciiNames titled ∧ titled.Encoded ∧ ¬ Sheltered titled) ∧
    read (String.ofList titled.text) = .ok (some titledTree) ∧
    read (String.ofList (normalised titled.text)) = .ok (some brokenTree) ∧
    brokenTree.bare ≠ titledTree.bare := by
  refine ⟨⟨by decide +kernel, by decide +kernel, by decide +kernel, by decide +kernel⟩, ?_, ?_, ?_⟩
  · exact (read_eq_of_toList String.toList_ofList (by decide +kernel) (by decide +kernel)
      (by decide +kernel)).trans rfl
  · have hform : String.ofList (normalised titled.text) =
        "<F><Layout name=\"The \"big\" one\"><Object/></Layout>" ++ "<Layout name=\"Two\" /></F>" :=
      ofList_eq_of_toList (toList_two _ _) (by decide +kernel)
    rw [hform]
    exact (read_eq_of_toList (toList_two _ _) (by decide) (by rfl) (by rfl)).trans (by rfl)
  · intro h
    exact absurd (congrArg (fun n => n.children.map (·.children.length)) h) (by decide)

end DesignAudit.Normal
