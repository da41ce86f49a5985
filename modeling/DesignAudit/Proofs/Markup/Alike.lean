import DesignAudit.Proofs.Markup.Content
import DesignAudit.Proofs.Traversal

/-!
# Documents that are alike

Two documents are alike if their pieces of markup are of the same kinds and names in the same order,
and declare the same namespaces and the same encoding. Texts and other attribute values may differ.
Such documents are read as trees of the same structure (`Document.Alike.bare_read`).
-/

namespace DesignAudit.Markup

open Traversal

/-! ## Pieces of markup -/

/-- Two attributes of one name, and of one value if they declare a namespace. -/
def WrittenAttribute.Alike (a' a : WrittenAttribute) : Prop :=
  a'.name = a.name ∧
    ((declaredPrefix? a.name).isSome = true → a'.quote = a.quote ∧ a'.value = a.value)

/-- Two pieces of markup that differ in their texts and in the values of their attributes only. -/
inductive Mark.Alike : Mark → Mark → Prop where
  | start {t' t : StartTag} (name : t'.name = t.name)
      (attributes : List.Forall₂ WrittenAttribute.Alike t'.attributes t.attributes)
      (closed : t'.closed = t.closed) : Alike (.start t') (.start t)
  | stop (name space : List Char) : Alike (.stop name space) (.stop name space)
  | literal (text' text : List Char) : Alike (.literal text') (.literal text)
  | comment (text' text : List Char) : Alike (.comment text') (.comment text)
  | instruction {target space text' text : List Char}
      (declaration : target = ['x', 'm', 'l'] → text' = text) :
      Alike (.instruction target space text') (.instruction target space text)
  | doctype (text' text : List Char) : Alike (.doctype text') (.doctype text)

theorem WrittenAttribute.Alike.withoutPlainValue_eq {a' a : WrittenAttribute} (h : a'.Alike a) :
    withoutPlainValue a'.read = withoutPlainValue a.read := by
  obtain ⟨hname, hvalue⟩ := h
  rw [WrittenAttribute.read, WrittenAttribute.read, hname]
  refine Markup.withoutPlainValue_eq fun hdeclared => ?_
  obtain ⟨hquote, hvalue⟩ := hvalue hdeclared
  rw [hquote, hvalue]

theorem WrittenAttribute.Alike.inBytes {a' a : WrittenAttribute} (h : a'.Alike a) :
    a'.inBytes.Alike a.inBytes := by
  obtain ⟨hname, hvalue⟩ := h
  refine ⟨hname, fun hdeclared => ?_⟩
  obtain ⟨hquote, hvalue⟩ := hvalue hdeclared
  exact ⟨hquote, congrArg bytewiseText hvalue⟩

namespace Mark.Alike

variable {m' m : Mark}

/-- Pieces of markup that are alike make the same change. -/
theorem change_eq (h : m'.Alike m) : m'.change = m.change := by
  cases h with
  | start name attributes closed =>
    rename_i t' t
    have hwritten : t'.attributes.map (fun a => withoutPlainValue a.read) =
        t.attributes.map (fun a => withoutPlainValue a.read) := by
      rw [← List.forall₂_eq_eq_eq, List.forall₂_map_left_iff, List.forall₂_map_right_iff]
      exact attributes.imp fun a' a ha => ha.withoutPlainValue_eq
    rw [Mark.change, Mark.change, name, hwritten, closed]
  | stop name space => rfl
  | literal text' text => rfl
  | comment text' text => rfl
  | instruction declaration => rfl
  | doctype text' text => rfl

theorem inBytes (h : m'.Alike m) : m'.inBytes.Alike m.inBytes := by
  cases h with
  | start name attributes closed =>
    refine .start name ?_ closed
    rw [StartTag.inBytes, StartTag.inBytes, List.forall₂_map_left_iff, List.forall₂_map_right_iff]
    exact attributes.imp fun a' a ha => ha.inBytes
  | stop name space => exact .stop name space
  | literal text' text => exact .literal _ _
  | comment text' text => exact .comment _ _
  | instruction declaration =>
    exact .instruction fun hxml => congrArg bytewiseText (declaration hxml)
  | doctype text' text => exact .doctype _ _

theorem asciiNames (h : m'.Alike m) (hascii : AsciiNames m) : AsciiNames m' := by
  cases h with
  | start name attributes closed =>
    rename_i t' t
    refine ⟨name ▸ hascii.1, fun a' ha' => ?_⟩
    obtain ⟨a, ha, hname, -⟩ := exists_mem_of_forall₂ attributes ha'
    rw [hname]
    exact hascii.2 a ha
  | stop name space => exact hascii
  | literal text' text => exact hascii
  | comment text' text => exact hascii
  | instruction declaration => exact hascii
  | doctype text' text => exact hascii

theorem encoding?_eq (h : m'.Alike m) : m'.encoding? = m.encoding? := by
  cases h with
  | start name attributes closed => rfl
  | stop name space => rfl
  | literal text' text => rfl
  | comment text' text => rfl
  | instruction declaration =>
    rw [Mark.encoding?, Mark.encoding?]
    split
    · rename_i hxml
      rw [declaration hxml]
    · rfl
  | doctype text' text => rfl

theorem beforeRoot_eq (h : m'.Alike m) : m'.beforeRoot = m.beforeRoot := by
  cases h <;> rfl

theorem withinRoot_eq (h : m'.Alike m) : m'.withinRoot = m.withinRoot := by
  cases h <;> rfl

end Mark.Alike

/-! ## Documents -/

/-- Two segments whose pieces of markup are alike. -/
def Segment.Alike (s' s : Segment) : Prop := s'.mark.Alike s.mark

/-- Two documents whose pieces of markup are alike, one by one. -/
structure Document.Alike (d' d : Document) : Prop where
  lead : d'.lead = d.lead
  prolog : List.Forall₂ Segment.Alike d'.prolog d.prolog
  root : (Mark.start d'.root).Alike (.start d.root)
  segments : List.Forall₂ Segment.Alike d'.segments d.segments

theorem asciiNames_segments {segments' segments : List Segment}
    (h : List.Forall₂ Segment.Alike segments' segments)
    (hascii : ∀ s ∈ segments, AsciiNames s.mark) : ∀ s' ∈ segments', AsciiNames s'.mark := by
  intro s' hs'
  obtain ⟨s, hs, hmark⟩ := exists_mem_of_forall₂ h hs'
  exact Mark.Alike.asciiNames hmark (hascii s hs)

theorem alike_segments_inBytes {segments' segments : List Segment}
    (h : List.Forall₂ Segment.Alike segments' segments) :
    List.Forall₂ Segment.Alike (segments'.map Segment.inBytes)
      (segments.map Segment.inBytes) := by
  rw [List.forall₂_map_left_iff, List.forall₂_map_right_iff]
  exact h.imp fun s' s hmark => Mark.Alike.inBytes hmark

namespace Document.Alike

variable {d' d : Document}

theorem hasAsciiNames (h : d'.Alike d) (hascii : HasAsciiNames d) : HasAsciiNames d' where
  prolog := asciiNames_segments h.prolog hascii.prolog
  root := h.root.asciiNames hascii.root
  segments := asciiNames_segments h.segments hascii.segments

theorem inBytes (h : d'.Alike d) : d'.inBytes.Alike d.inBytes where
  lead := h.lead
  prolog := alike_segments_inBytes h.prolog
  root := h.root.inBytes
  segments := alike_segments_inBytes h.segments

theorem outline_eq (h : d'.Alike d) : d'.outline = d.outline := by
  have hsegments : d'.segments.map (·.mark.change) = d.segments.map (·.mark.change) := by
    rw [← List.forall₂_eq_eq_eq, List.forall₂_map_left_iff, List.forall₂_map_right_iff]
    exact h.segments.imp fun s' s hmark => Mark.Alike.change_eq hmark
  rw [Document.outline, Document.outline, h.root.change_eq, hsegments]

theorem declaredEncoding?_eq (h : d'.Alike d) (hd' : d'.WellFormed) (hd : d.WellFormed) :
    declaredEncoding? d'.text = declaredEncoding? d.text := by
  have hhead : ∀ {prolog' prolog : List Segment}, List.Forall₂ Segment.Alike prolog' prolog →
      prolog'.head?.bind (·.mark.encoding?) = prolog.head?.bind (·.mark.encoding?) := by
    intro prolog' prolog hprolog
    cases hprolog with
    | nil => rfl
    | cons hmark _ => exact Mark.Alike.encoding?_eq hmark
  rw [declaredEncoding?_text hd', declaredEncoding?_text hd, h.lead, hhead h.prolog]

theorem decoded (h : d'.Alike d) (hd' : d'.WellFormed) (hd : d.WellFormed) :
    d'.decoded.Alike d.decoded := by
  rw [Document.decoded, Document.decoded, h.declaredEncoding?_eq hd' hd]
  split
  · exact h.inBytes
  · exact h

/-- Documents that are alike are read as trees of the same structure. -/
theorem bare_read (h : d'.Alike d) (hd' : d'.WellFormed) (hd : d.WellFormed)
    (hascii : HasAsciiNames d) (hencoded' : d'.Encoded) (hencoded : d.Encoded) :
    (read (String.ofList d'.text)).map (Option.map Node.bare) =
      (read (String.ofList d.text)).map (Option.map Node.bare) := by
  rw [Document.bare_read hd' (h.hasAsciiNames hascii) hencoded',
    Document.bare_read hd hascii hencoded, h.declaredEncoding?_eq hd' hd, (h.decoded hd' hd).outline_eq]

end Document.Alike

end DesignAudit.Markup
