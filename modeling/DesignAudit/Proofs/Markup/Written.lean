import DesignAudit.Proofs.Markup.Scanning
import DesignAudit.Proofs.Markup.Structure

/-!
# Written documents

A document is written as a prolog, the start tag of the root, and further pieces of markup with text
between them. `WellFormed` asks for what the reader relies on: names are names, a value does not
hold its own quote, a remark does not hold the mark that ends it. Every well-formed document is
written so, unless its document type declaration has declarations of its own in it. Whether tags
match is left open.

The attributes of a start tag are read as they are written (`attributeList_inner`), and so one piece
of markup is one step of the reader, which makes the change that the markup stands for
(`follows_step`).
-/

namespace DesignAudit.Markup

open Text (unifyLineEnds)

/-! ## Documents -/

/-- White space only. -/
def IsBlank (s : List Char) : Prop := ∀ c ∈ s, isSpace c = true

instance (s : List Char) : Decidable (IsBlank s) := inferInstanceAs (Decidable (∀ _ ∈ _, _))

instance (quote : Char) (value : List Char) : Decidable (IsValue quote value) :=
  inferInstanceAs (Decidable (∀ _ ∈ _, _))

/-- An attribute as written, with the white space before it and around its equals sign. -/
structure WrittenAttribute where
  lead : List Char
  name : List Char
  before : List Char
  behind : List Char
  quote : Char
  value : List Char

namespace WrittenAttribute

/-- All before the first quote. -/
def opening (a : WrittenAttribute) : List Char :=
  a.lead ++ (a.name ++ (a.before ++ '=' :: a.behind))

def text (a : WrittenAttribute) : List Char := a.opening ++ a.quote :: (a.value ++ [a.quote])

/-- An attribute that can be read as it is meant. -/
structure WellFormed (a : WrittenAttribute) : Prop where
  lead : a.lead ≠ [] ∧ IsBlank a.lead
  name : isName a.name = true
  blanks : IsBlank a.before ∧ IsBlank a.behind
  quote : a.quote = '"' ∨ a.quote = '\''
  value : IsValue a.quote a.value

/-- What is read: the name and the value. -/
def read (a : WrittenAttribute) : List Char × List Char :=
  (a.name, (valueRead a.quote a.value).value)

end WrittenAttribute

/-- A start tag as written, with the white space before its end; a closed one is an empty
element. -/
structure StartTag where
  name : List Char
  attributes : List WrittenAttribute
  space : List Char
  closed : Bool

namespace StartTag

def ending (t : StartTag) : List Char := if t.closed then ['/', '>'] else ['>']

/-- All behind the name. -/
def inner (t : StartTag) : List Char :=
  t.attributes.flatMap WrittenAttribute.text ++ (t.space ++ t.ending)

def text (t : StartTag) : List Char := '<' :: (t.name ++ t.inner)

/-- A start tag that can be read as it is meant. -/
structure WellFormed (t : StartTag) : Prop where
  name : isName t.name = true
  attributes : ∀ a ∈ t.attributes, a.WellFormed
  space : IsBlank t.space

end StartTag

/-- A piece of markup as written. -/
inductive Mark where
  | start (tag : StartTag)
  | stop (name space : List Char)
  | literal (text : List Char)
  | comment (text : List Char)
  | instruction (target space text : List Char)
  | doctype (text : List Char)

/-- The characters of the declaration at the head of a document: ASCII, and none of the signs that
are no part of a name, a number or a quoted text there. -/
def isDeclarationChar (c : Char) : Bool :=
  Nat.blt c.toNat 0x80 && !(['?', '/', ';', '<', '>'].contains c)

namespace Mark

/-- The characters of a piece of markup. -/
def text : Mark → List Char
  | start tag => tag.text
  | stop name space => '<' :: '/' :: (name ++ (space ++ ['>']))
  | literal text => ['<', '!', '[', 'C', 'D', 'A', 'T', 'A', '['] ++ (text ++ [']', ']', '>'])
  | comment text => ['<', '!', '-', '-'] ++ (text ++ ['-', '-', '>'])
  | instruction target space text => '<' :: '?' :: (target ++ (space ++ (text ++ ['?', '>'])))
  | doctype text => ['<', '!', 'D', 'O', 'C', 'T', 'Y', 'P', 'E'] ++ (text ++ ['>'])

/-- A piece of markup that can be read as it is meant. -/
def WellFormed : Mark → Prop
  | start tag => tag.WellFormed
  | stop name space => isName name = true ∧ IsBlank space
  | literal text => ¬ [']', ']', '>'] <:+: text
  | comment text => ¬ ['-', '-', '>'] <:+: text
  | instruction target space text =>
    isName target = true ∧ IsBlank space ∧ (space = [] → text = []) ∧
      (∀ c ∈ text.head?, isSpace c = false) ∧ ¬ ['?', '>'] <:+: text ∧
      (target = ['x', 'm', 'l'] → ∀ c ∈ text, isDeclarationChar c = true)
  | doctype text => '>' ∉ text ∧ '[' ∉ text

/-- What a piece of markup does to the structure. -/
def change : Mark → Change
  | start tag =>
    .opens tag.name (tag.attributes.map fun a => withoutPlainValue a.read) tag.closed
  | stop _ _ => .closes
  | literal _ => .keeps
  | comment _ => .remarks .comment Node.commentLabel
  | instruction _ _ _ => .remarks .instruction Node.instructionLabel
  | doctype _ => .keeps

/-- Whether a piece of markup may stand before the root. -/
def beforeRoot : Mark → Bool
  | comment _ => true
  | instruction _ _ _ => true
  | doctype _ => true
  | _ => false

/-- Whether a piece of markup may stand in the root: only a document type declaration may not. -/
def withinRoot : Mark → Bool
  | doctype _ => false
  | _ => true

end Mark

/-- A piece of markup with the text behind it. -/
structure Segment where
  mark : Mark
  after : List Char

namespace Segment

def text (s : Segment) : List Char := s.mark.text ++ s.after

/-- A segment that can be read as it is meant. -/
def WellFormed (s : Segment) : Prop :=
  s.mark.WellFormed ∧ s.mark.withinRoot = true ∧ '<' ∉ s.after

end Segment

/-- A document as written: a prolog, the root's start tag, and what follows. -/
structure Document where
  lead : List Char
  prolog : List Segment
  root : StartTag
  after : List Char
  segments : List Segment

namespace Document

/-- All behind the root's start tag. -/
def body (d : Document) : List Char := d.after ++ d.segments.flatMap Segment.text

def text (d : Document) : List Char :=
  d.lead ++ (d.prolog.flatMap Segment.text ++ (d.root.text ++ d.body))

/-- A document that can be read as it is meant. -/
structure WellFormed (d : Document) : Prop where
  lead : IsBlank d.lead
  prolog : ∀ s ∈ d.prolog, s.mark.beforeRoot = true ∧ s.mark.WellFormed ∧ IsBlank s.after
  root : d.root.WellFormed
  after : '<' ∉ d.after
  segments : ∀ s ∈ d.segments, s.WellFormed

end Document

/-! ## Deciding -/

instance (a : WrittenAttribute) : Decidable a.WellFormed :=
  decidable_of_iff ((a.lead ≠ [] ∧ IsBlank a.lead) ∧ isName a.name = true ∧
      (IsBlank a.before ∧ IsBlank a.behind) ∧ (a.quote = '"' ∨ a.quote = '\'') ∧
      IsValue a.quote a.value)
    ⟨fun ⟨hlead, hname, hblanks, hquote, hvalue⟩ => ⟨hlead, hname, hblanks, hquote, hvalue⟩,
      fun h => ⟨h.lead, h.name, h.blanks, h.quote, h.value⟩⟩

instance (t : StartTag) : Decidable t.WellFormed :=
  decidable_of_iff (isName t.name = true ∧ (∀ a ∈ t.attributes, a.WellFormed) ∧ IsBlank t.space)
    ⟨fun ⟨hname, hattributes, hspace⟩ => ⟨hname, hattributes, hspace⟩,
      fun h => ⟨h.name, h.attributes, h.space⟩⟩

instance : (m : Mark) → Decidable m.WellFormed
  | .start tag => inferInstanceAs (Decidable tag.WellFormed)
  | .stop _ _ => inferInstanceAs (Decidable (_ ∧ _))
  | .literal _ => inferInstanceAs (Decidable (¬ _))
  | .comment _ => inferInstanceAs (Decidable (¬ _))
  | .instruction _ _ _ => inferInstanceAs (Decidable (_ ∧ _ ∧ _ ∧ _ ∧ _ ∧ _))
  | .doctype _ => inferInstanceAs (Decidable (_ ∧ _))

instance (s : Segment) : Decidable s.WellFormed := inferInstanceAs (Decidable (_ ∧ _ ∧ _))

instance (d : Document) : Decidable d.WellFormed :=
  decidable_of_iff (IsBlank d.lead ∧
      (∀ s ∈ d.prolog, s.mark.beforeRoot = true ∧ s.mark.WellFormed ∧ IsBlank s.after) ∧
      d.root.WellFormed ∧ '<' ∉ d.after ∧ ∀ s ∈ d.segments, s.WellFormed)
    ⟨fun ⟨hlead, hprolog, hroot, hafter, hsegments⟩ => ⟨hlead, hprolog, hroot, hafter, hsegments⟩,
      fun h => ⟨h.lead, h.prolog, h.root, h.after, h.segments⟩⟩

/-! ## Start tags -/

theorem isSpace_cases {c : Char} (h : isSpace c = true) :
    c = ' ' ∨ c = '\t' ∨ c = '\n' ∨ c = '\r' := by
  simpa [isSpace, or_assoc] using h

theorem isNameChar_of_isSpace {c : Char} (h : isSpace c = true) : isNameChar c = false := by
  rcases isSpace_cases h with rfl | rfl | rfl | rfl <;> decide

theorem isSpace_of_isNameChar {c : Char} (h : isNameChar c = true) : isSpace c = false := by
  rw [Bool.eq_false_iff]
  intro hspace
  rw [isNameChar_of_isSpace hspace] at h
  cases h

/-- A name ends before white space and before a character that no name holds. -/
theorem isNameChar_head? {s : List Char} (hs : IsBlank s) {x : Char} (hx : isNameChar x = false)
    (rest : List Char) : ∀ c ∈ (s ++ x :: rest).head?, isNameChar c = false := by
  intro c hc
  cases s with
  | nil =>
    rw [← Option.some.inj hc]
    exact hx
  | cons y s =>
    rw [← Option.some.inj hc]
    exact isNameChar_of_isSpace (hs y List.mem_cons_self)

variable {r : Reading} {t : StartTag}

/-- What follows the name of a start tag: white space, or the end of the tag. -/
theorem head?_inner (ht : t.WellFormed) (tail : List Char) :
    (t.inner ++ tail).head?.any isSpace = true ∨
      t.attributes = [] ∧ t.inner ++ tail = t.ending ++ tail := by
  obtain ⟨name, attributes, space, closed⟩ := t
  cases attributes with
  | cons a attributes =>
    obtain ⟨hne, hblank⟩ := (ht.attributes a List.mem_cons_self).lead
    obtain ⟨c, rest, hlead⟩ := List.exists_cons_of_ne_nil hne
    have hc : isSpace c = true := hblank c (hlead ▸ List.mem_cons_self)
    left
    simp [StartTag.inner, WrittenAttribute.text, WrittenAttribute.opening, hlead, hc]
  | nil =>
    cases space with
    | cons c space =>
      left
      simp [StartTag.inner, ht.space c List.mem_cons_self]
    | nil => exact .inr ⟨rfl, rfl⟩

theorem head?_ending (t : StartTag) (tail : List Char) :
    ∀ c ∈ (t.ending ++ tail).head?, c = '/' ∨ c = '>' := by
  intro c hc
  rw [StartTag.ending] at hc
  split at hc
  · exact .inl (Option.some.inj hc).symm
  · exact .inr (Option.some.inj hc).symm

/-- One attribute is read up to its second quote; the list goes on behind white space. -/
theorem attributeList_attribute {a : WrittenAttribute} (ha : a.WellFormed) {fuel : Nat}
    (hfuel : a.value.length ≤ fuel) (rest : List Char) :
    let read := attributeList (fuel + 1) (skipSpace (a.text ++ rest)).2
    let more := attributeList fuel (skipSpace rest).2
    read.attributes = a.read :: (if rest.head?.any isSpace then more.attributes else []) ∧
      read.rest = if rest.head?.any isSpace then more.rest else rest := by
  have hquote : isSpace a.quote = false ∧ (a.quote == '"' || a.quote == '\'') = true ∧
      IsDelimiter a.quote := by
    rcases ha.quote with h | h
    · rw [h]
      exact ⟨by decide, by decide, isDelimiter_of_mem (by decide)⟩
    · rw [h]
      exact ⟨by decide, by decide, isDelimiter_of_mem (by decide)⟩
  have htext : a.text ++ rest = a.lead ++ (a.name ++ (a.before ++ '=' :: (a.behind ++
      a.quote :: (a.value ++ a.quote :: rest)))) := by
    simp [WrittenAttribute.text, WrittenAttribute.opening]
  obtain ⟨c, cs, hcons, hstart, -⟩ := exists_of_isName ha.name
  have hname : takeName (a.name ++ (a.before ++ '=' :: (a.behind ++
      a.quote :: (a.value ++ a.quote :: rest)))) = (a.name, a.before ++ '=' :: (a.behind ++
      a.quote :: (a.value ++ a.quote :: rest))) :=
    takeName_append ha.name (isNameChar_head? ha.blanks.1 (by decide) _)
  have hspace : isSpace c = false := isSpace_of_isNameChar (isNameChar_of_isNameStart hstart)
  have hclose : c ≠ '>' := ne_of_isNameStart hstart (by decide)
  have hslash : c ≠ '/' := ne_of_isNameStart hstart (by decide)
  rw [htext, skipSpace_append ha.lead.2 (by simpa [hcons] using hspace)]
  dsimp only
  rw [attributeList, if_neg (by simp [hcons, List.isPrefixOf, hclose.symm, hslash.symm]), hname]
  dsimp only
  rw [if_neg (by simp [hcons]), skipSpace_append ha.blanks.1 (by simp [isSpace])]
  simp only []
  rw [skipSpace_append ha.blanks.2 (by simpa using hquote.1)]
  simp only []
  rw [if_pos hquote.2.1, attributeValue_append hquote.2.2 ha.value (Nat.lt_succ_of_le hfuel)]
  dsimp only
  split
  · exact ⟨rfl, rfl⟩
  · exact ⟨rfl, rfl⟩

/-- No attribute is read at the end of a tag. -/
theorem attributeList_ending (t : StartTag) (fuel : Nat) (tail : List Char) :
    (attributeList fuel (t.ending ++ tail)).attributes = [] ∧
      (attributeList fuel (t.ending ++ tail)).rest = t.ending ++ tail := by
  cases fuel with
  | zero => exact ⟨rfl, rfl⟩
  | succ fuel =>
    rw [StartTag.ending]
    split
    · exact ⟨rfl, rfl⟩
    · exact ⟨rfl, rfl⟩

/-- The attributes of a start tag are read as they are written, and no further. -/
theorem attributeList_inner (ht : t.WellFormed) {fuel : Nat}
    (hfuel : t.inner.length ≤ fuel) (tail : List Char) :
    (attributeList fuel (skipSpace (t.inner ++ tail)).2).attributes =
        t.attributes.map WrittenAttribute.read ∧
      (attributeList fuel (skipSpace (t.inner ++ tail)).2).rest = t.ending ++ tail := by
  obtain ⟨name, attributes, space, closed⟩ := t
  induction attributes generalizing fuel with
  | nil =>
    have hspace : skipSpace (StartTag.inner ⟨name, [], space, closed⟩ ++ tail) =
        (lineFeeds space, StartTag.ending ⟨name, [], space, closed⟩ ++ tail) := by
      rw [StartTag.inner, List.flatMap_nil, List.nil_append, List.append_assoc]
      refine skipSpace_append ht.space fun c hc => ?_
      rcases head?_ending _ tail c hc with rfl | rfl
      · decide
      · decide
    rw [hspace]
    exact attributeList_ending _ fuel tail
  | cons a attributes ih =>
    have ha := ht.attributes a List.mem_cons_self
    have hmore : StartTag.WellFormed ⟨name, attributes, space, closed⟩ :=
      ⟨ht.name, fun b hb => ht.attributes b (List.mem_cons_of_mem a hb), ht.space⟩
    have hinner : StartTag.inner ⟨name, a :: attributes, space, closed⟩ =
        a.text ++ StartTag.inner ⟨name, attributes, space, closed⟩ := by
      simp [StartTag.inner, StartTag.ending]
    have hlength : a.value.length + 3 ≤ a.text.length := by
      simp only [WrittenAttribute.text, WrittenAttribute.opening, List.length_append,
        List.length_cons, List.length_nil]
      omega
    rw [hinner, List.length_append] at hfuel
    obtain ⟨k, rfl, hvalue, hk⟩ : ∃ k, fuel = k + 1 ∧ a.value.length ≤ k ∧
        (StartTag.inner ⟨name, attributes, space, closed⟩).length ≤ k :=
      ⟨fuel - 1, by omega, by omega, by omega⟩
    obtain ⟨hattributes, hrest⟩ := attributeList_attribute ha hvalue
      (StartTag.inner ⟨name, attributes, space, closed⟩ ++ tail)
    obtain ⟨ihattributes, ihrest⟩ := ih hmore hk
    rw [hinner, List.append_assoc, hattributes, hrest]
    rcases head?_inner hmore tail with hspace | ⟨rfl, hend⟩
    · rw [if_pos hspace, if_pos hspace, ihattributes, ihrest]
      exact ⟨rfl, rfl⟩
    · have hnone :
          ¬ (StartTag.inner ⟨name, [], space, closed⟩ ++ tail).head?.any isSpace = true := by
        rw [hend, Option.any_eq_true]
        rintro ⟨c, hc, hspace⟩
        rcases head?_ending _ tail c hc with rfl | rfl
        · cases hspace
        · cases hspace
      rw [if_neg hnone, if_neg hnone, hend]
      exact ⟨rfl, rfl⟩

/-! ## One piece of markup -/

/-- A reading goes on behind a piece of markup and has made the change. It comes to its end where
the change closes the root, or where an element would lie too deep. -/
def Follows (change : Change) (tail : List Char) (r s : Reading) : Prop :=
  s.size = r.size ∧
    match change.apply r.bare with
    | some b => s.bare = b ∧ (s.rest = tail ∨ s.stack = [])
    | none => s.bare = r.bare ∧ s.rest = []

theorem rest_place (r : Reading) (n : Node) :
    (r.place n).rest = r.rest ∨ (r.place n).stack = [] := by
  obtain ⟨size, line, rest, stack, root⟩ := r
  cases stack with
  | nil => exact .inr rfl
  | cons e outer => exact .inl rfl

theorem size_place (r : Reading) (n : Node) : (r.place n).size = r.size := by
  obtain ⟨size, line, rest, stack, root⟩ := r
  cases stack with
  | nil => rfl
  | cons e outer => rfl

/-- The name of a start tag ends where its attributes or its end begin. -/
theorem takeName_startTag (ht : t.WellFormed) {cs tail : List Char}
    (hrest : cs = t.name ++ (t.inner ++ tail)) :
    takeName cs = (t.name, t.inner ++ tail) ∧ t.name.isEmpty = false := by
  obtain ⟨c, rest, hcons, -⟩ := exists_of_isName ht.name
  refine ⟨?_, by rw [hcons]; rfl⟩
  rw [hrest]
  refine takeName_append ht.name fun c hc => ?_
  rcases head?_inner ht tail with hspace | ⟨-, hend⟩
  · rw [Option.mem_def.mp hc] at hspace
    exact isNameChar_of_isSpace hspace
  · rw [hend] at hc
    rcases head?_ending t tail c hc with rfl | rfl
    · decide
    · decide

/-- A start tag is read as it is written, and opens its element or adds it as a child. -/
theorem exists_startTag_eq (ht : t.WellFormed) {tail : List Char}
    (hrest : r.rest = t.name ++ (t.inner ++ tail)) (hsize : r.rest.length ≤ r.size)
    (hdepth : ¬ Reading.depthLimit < r.stack.length) :
    ∃ line, r.startTag =
      if t.closed then
        Reading.place { r with line, rest := tail }
          (openElement r.stack.head? t.name (t.attributes.map WrittenAttribute.read) line).close
      else { r with
        line, rest := tail
        stack := openElement r.stack.head? t.name (t.attributes.map WrittenAttribute.read) line ::
          r.stack } := by
  have hname := takeName_startTag ht hrest
  have hfuel : t.inner.length ≤ r.size + 1 := by
    rw [hrest, List.length_append, List.length_append] at hsize
    omega
  obtain ⟨hattributes, hend⟩ := attributeList_inner ht hfuel tail
  refine ⟨r.line + (skipSpace (t.inner ++ tail)).1 +
    (attributeList (r.size + 1) (skipSpace (t.inner ++ tail)).2).lines, ?_⟩
  rw [Reading.startTag, hname.1]
  simp only [hname.2, Bool.false_eq_true, if_false, hdepth, hend, hattributes]
  cases hclosed : t.closed with
  | true =>
    simp only [StartTag.ending, hclosed, if_true, List.cons_append, List.nil_append]
  | false =>
    simp only [StartTag.ending, hclosed, Bool.false_eq_true, if_false, List.cons_append,
      List.nil_append]

/-- An element that would lie too deep ends the reading. -/
theorem startTag_of_depth (ht : t.WellFormed) {tail : List Char}
    (hrest : r.rest = t.name ++ (t.inner ++ tail)) (hdepth : Reading.depthLimit < r.stack.length) :
    r.startTag = { r with rest := [] } := by
  have hname := takeName_startTag ht hrest
  rw [Reading.startTag, hname.1]
  simp only [hname.2, Bool.false_eq_true, if_false, hdepth, if_true]

theorem follows_startTag (ht : t.WellFormed) {tail : List Char}
    (hrest : r.rest = t.name ++ (t.inner ++ tail)) (hsize : r.rest.length ≤ r.size) :
    Follows (Mark.start t).change tail r r.startTag := by
  have hlength : r.bare.stack.length = r.stack.length := List.length_map _
  have hhead : r.bare.stack.head? = r.stack.head?.map OpenElement.bare := List.head?_map ..
  rw [Follows]
  by_cases hdepth : Reading.depthLimit < r.stack.length
  · rw [startTag_of_depth ht hrest hdepth]
    simp only [Mark.change, Change.apply, hlength, hdepth, if_true]
    exact ⟨trivial, rfl, trivial⟩
  · obtain ⟨line, hstart⟩ := exists_startTag_eq ht hrest hsize hdepth
    have hopened := bare_openElement r.stack.head? t.name
      (t.attributes.map WrittenAttribute.read) line
    rw [List.map_map] at hopened
    rw [hstart]
    simp only [Mark.change, Change.apply, hlength, hhead, hdepth, if_false]
    cases t.closed with
    | true =>
      refine ⟨size_place _ _, ?_, rest_place _ _⟩
      rw [if_pos rfl, Reading.bare_place, OpenElement.bare_close, hopened]
      rfl
    | false =>
      refine ⟨rfl, ?_, .inl rfl⟩
      simp only [Bool.false_eq_true, if_false, Reading.bare, List.map_cons, hopened]
      rfl

theorem follows_endTag {name space tail : List Char} (hname : isName name = true)
    (hspace : IsBlank space) (hrest : r.rest = name ++ (space ++ '>' :: tail))
    (hstack : r.stack ≠ []) : Follows .closes tail r r.endTag := by
  have htaken : takeName r.rest = (name, space ++ '>' :: tail) := by
    rw [hrest]
    exact takeName_append hname (isNameChar_head? hspace (by decide) tail)
  have hskip : skipSpace (space ++ '>' :: tail) = (lineFeeds space, '>' :: tail) := by
    refine skipSpace_append hspace fun c hc => ?_
    rw [← Option.some.inj hc]
    decide
  obtain ⟨size, line, rest, stack, root⟩ := r
  obtain ⟨e, outer, rfl⟩ := List.exists_cons_of_ne_nil hstack
  rw [Follows, Reading.endTag, htaken]
  dsimp only
  rw [hskip]
  refine ⟨size_place _ _, (Reading.bare_place _ _).trans ?_, rest_place _ _⟩
  rw [OpenElement.bare_close]
  rfl

theorem follows_remark {s content tail : List Char} {x : Char} (hx : x ∉ s)
    (hcontent : ¬ s ++ [x] <:+: content) (hstack : r.stack ≠ []) (kind : Kind)
    (label : String) :
    Follows (.remarks kind label) tail r
    (r.remark kind label (s ++ [x]) (content ++ (s ++ [x] ++ tail))) := by
  obtain ⟨size, line, rest, stack, root⟩ := r
  obtain ⟨e, outer, rfl⟩ := List.exists_cons_of_ne_nil hstack
  rw [Follows, Reading.remark, splitAt?_append hx hcontent]
  refine ⟨size_place _ _, (Reading.bare_place _ _).trans ?_, rest_place _ _⟩
  rw [Node.bare, Node.bareAll]
  rfl

theorem takeName_instruction {target space text : List Char}
    (h : (Mark.instruction target space text).WellFormed) (tail : List Char) :
    takeName (target ++ (space ++ (text ++ '?' :: '>' :: tail))) =
      (target, space ++ (text ++ '?' :: '>' :: tail)) := by
  obtain ⟨htarget, hspace, hempty, -⟩ := h
  refine takeName_append htarget fun c hc => ?_
  cases space with
  | nil =>
    rw [hempty rfl] at hc
    rw [← Option.some.inj hc]
    decide
  | cons x xs =>
    rw [← Option.some.inj hc]
    exact isNameChar_of_isSpace (hspace x List.mem_cons_self)

/-- Target and white space of an instruction are passed, and the rest is read as a remark. -/
theorem instruction_written {target space text : List Char}
    (h : (Mark.instruction target space text).WellFormed) (r : Reading) (tail : List Char) :
    r.instruction (target ++ (space ++ (text ++ '?' :: '>' :: tail))) =
      (r.goTo (lineFeeds space) (text ++ '?' :: '>' :: tail)).remark .instruction
        Node.instructionLabel ['?', '>'] (text ++ '?' :: '>' :: tail) := by
  have htaken := takeName_instruction h tail
  obtain ⟨htarget, hspace, -, hhead, -⟩ := h
  have hskip : skipSpace (space ++ (text ++ '?' :: '>' :: tail)) =
      (lineFeeds space, text ++ '?' :: '>' :: tail) := by
    refine skipSpace_append hspace fun c hc => ?_
    cases text with
    | nil =>
      rw [← Option.some.inj hc]
      decide
    | cons x xs => exact hhead c hc
  have hnonempty : ¬ target.isEmpty = true := by
    obtain ⟨c, cs, rfl, -⟩ := exists_of_isName htarget
    simp
  rw [Reading.instruction, htaken]
  dsimp only
  rw [if_neg hnonempty, hskip]

theorem follows_instruction {target space text tail : List Char}
    (h : (Mark.instruction target space text).WellFormed) (hstack : r.stack ≠ []) :
    Follows (Mark.instruction target space text).change tail r
    (r.instruction (target ++ (space ++ (text ++ '?' :: '>' :: tail)))) := by
  rw [instruction_written h]
  obtain ⟨-, -, -, -, hmark, -⟩ := h
  exact @follows_remark (r.goTo (lineFeeds space) (text ++ '?' :: '>' :: tail)) ['?'] text tail '>'
    (by decide) hmark hstack .instruction
    Node.instructionLabel

theorem follows_literal {text tail : List Char} (h : ¬ [']', ']', '>'] <:+: text) (r : Reading) :
    Follows .keeps tail r (r.literal (text ++ ']' :: ']' :: '>' :: tail)) := by
  have hsplit : splitAt? [']', ']', '>'] (text ++ ']' :: ']' :: '>' :: tail) = some (text, tail) :=
    @splitAt?_append [']', ']'] text '>' (by decide) h tail
  rw [Follows, Reading.literal, hsplit]
  have hbare := Reading.bare_modify (fun e => OpenElement.bare_addText e (unifyLineEnds text))
    (r.goTo (lineFeeds text) tail)
  obtain ⟨size, line, rest, stack, root⟩ := r
  cases stack with
  | nil => exact ⟨rfl, hbare, .inl rfl⟩
  | cons e outer => exact ⟨rfl, hbare, .inl rfl⟩

theorem step_of_isNameStart {c : Char} {cs : List Char}
    (hrest : r.rest = '<' :: c :: cs) (hc : isNameStart c = true) :
    r.step = Reading.startTag { r with rest := c :: cs } := by
  have hsigns : c ≠ '?' ∧ c ≠ '/' ∧ c ≠ '!' :=
    ⟨ne_of_isNameStart hc (by decide), ne_of_isNameStart hc (by decide),
      ne_of_isNameStart hc (by decide)⟩
  rw [Reading.step, hrest]
  simp [hsigns, List.isPrefixOf, hsigns.2.2.symm]

/-- One piece of markup is one step, and makes its change. -/
theorem follows_step {m : Mark} (hm : m.WellFormed) (hwithin : m.withinRoot = true)
    {tail : List Char} (hrest : r.rest = m.text ++ tail) (hsize : r.rest.length ≤ r.size)
    (hstack : r.stack ≠ []) : Follows m.change tail r r.step := by
  cases m with
  | start t =>
    obtain ⟨c, cs, hname, hstart, -⟩ := exists_of_isName hm.name
    have hcons : r.rest = '<' :: c :: (cs ++ (t.inner ++ tail)) := by
      simp [hrest, Mark.text, StartTag.text, hname]
    rw [hcons, List.length_cons] at hsize
    rw [step_of_isNameStart hcons hstart]
    exact @follows_startTag { r with rest := c :: (cs ++ (t.inner ++ tail)) } t hm tail
      (by rw [hname, List.cons_append]) (Nat.le_of_succ_le hsize)
  | stop name space =>
    have hstep : r.step = Reading.endTag { r with rest := name ++ (space ++ '>' :: tail) } := by
      rw [Reading.step, hrest]
      simp [Mark.text]
    rw [hstep]
    exact @follows_endTag { r with rest := name ++ (space ++ '>' :: tail) } name space tail hm.1
      hm.2 rfl hstack
  | literal text =>
    have hstep : r.step = r.literal (text ++ ']' :: ']' :: '>' :: tail) := by
      rw [Reading.step, hrest]
      simp [Mark.text]
    rw [hstep]
    exact follows_literal hm r
  | comment text =>
    have hstep : r.step = r.remark .comment Node.commentLabel ['-', '-', '>']
        (text ++ '-' :: '-' :: '>' :: tail) := by
      rw [Reading.step, hrest]
      simp [Mark.text]
    rw [hstep]
    exact @follows_remark r ['-', '-'] text tail '>' (by decide) hm hstack .comment
      Node.commentLabel
  | instruction target space text =>
    have hstep : r.step = r.instruction (target ++ (space ++ (text ++ '?' :: '>' :: tail))) := by
      rw [Reading.step, hrest]
      simp [Mark.text]
    rw [hstep]
    exact follows_instruction hm hstack
  | doctype text => cases hwithin

end DesignAudit.Markup
