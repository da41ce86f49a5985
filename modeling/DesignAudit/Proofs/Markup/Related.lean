import DesignAudit.Proofs.Markup.Elements

/-!
# Documents with related values

Two documents of the same markup may differ in the values of attributes and in texts. Where these are
related one by one, what is written in the one document is written in the other one too: the same tags
are open at a place (`Document.Related.places`), an attribute has a related value
(`StartTag.Related.value?`), and so has the text behind a tag (`WritesText.of_related`).
-/

namespace DesignAudit.Markup

open Traversal

/-! ## Pieces of markup -/

/-- Two start tags of one name whose attributes have the same names and related values. -/
structure StartTag.Related (V : List Char → List Char → Prop) (t' t : StartTag) : Prop where
  name : t'.name = t.name
  attributes : List.Forall₂ (fun a' a => a'.name = a.name ∧ V a'.value a.value)
    t'.attributes t.attributes
  closed : t'.closed = t.closed

/-- Two pieces of markup of one kind, with related values and texts. -/
inductive Mark.Related (V : List Char → List Char → Prop) : Mark → Mark → Prop where
  | start {t' t : StartTag} (tag : t'.Related V t) : Related V (.start t') (.start t)
  | stop (name' space' name space : List Char) : Related V (.stop name' space') (.stop name space)
  | literal {text' text : List Char} (value : V text' text) :
      Related V (.literal text') (.literal text)
  | comment (text' text : List Char) : Related V (.comment text') (.comment text)
  | instruction (target' space' text' target space text : List Char) :
      Related V (.instruction target' space' text') (.instruction target space text)
  | doctype (text' text : List Char) : Related V (.doctype text') (.doctype text)

/-- Two segments of related markup and related text. -/
structure Segment.Related (V : List Char → List Char → Prop) (s' s : Segment) : Prop where
  mark : s'.mark.Related V s.mark
  after : V s'.after s.after

/-- Two documents whose values and texts are related one by one. -/
structure Document.Related (V : List Char → List Char → Prop) (d' d : Document) : Prop where
  root : d'.root.Related V d.root
  segments : List.Forall₂ (Segment.Related V) d'.segments d.segments

section Related

variable {V W : List Char → List Char → Prop} {m m' : Mark} {t t' : StartTag}

theorem StartTag.Related.mono (h : t'.Related V t)
    (hmono : ∀ {v' v}, V v' v → W v' v) : t'.Related W t :=
  ⟨h.name, h.attributes.imp fun _ _ ha => ⟨ha.1, hmono ha.2⟩, h.closed⟩

theorem Mark.Related.mono (h : m'.Related V m) (hmono : ∀ {v' v}, V v' v → W v' v) :
    m'.Related W m := by
  cases h with
  | start tag => exact .start (tag.mono hmono)
  | stop => exact .stop _ _ _ _
  | literal value => exact .literal (hmono value)
  | comment => exact .comment _ _
  | instruction => exact .instruction _ _ _ _ _ _
  | doctype => exact .doctype _ _

theorem Document.Related.mono {d' d : Document} (h : d'.Related V d)
    (hmono : ∀ {v' v}, V v' v → W v' v) : d'.Related W d :=
  ⟨h.root.mono hmono, h.segments.imp fun _ _ hs => ⟨hs.mark.mono hmono, hmono hs.after⟩⟩

/-! ## Attributes and texts -/

theorem StartTag.Related.value? (h : t'.Related V t) {key : String} {v : List Char}
    (hv : t.value? key = some v) : ∃ v', t'.value? key = some v' ∧ V v' v := by
  obtain ⟨-, hattributes, -⟩ := h
  rw [StartTag.value?] at hv ⊢
  generalize t'.attributes = attributes', t.attributes = attributes at hattributes hv
  induction hattributes with
  | nil => cases hv
  | cons ha _ ih =>
    rename_i a' a _ _ _
    rw [List.find?_cons] at hv ⊢
    rw [ha.1]
    cases hname : a.name == key.toList with
    | true =>
      rw [hname] at hv
      obtain rfl : a.value = v := Option.some.inj hv
      exact ⟨a'.value, rfl, ha.2⟩
    | false =>
      rw [hname] at hv
      exact ih hv

theorem StartTag.Related.declaresDefault (h : t'.Related V t) :
    t'.declaresDefault = t.declaresDefault := by
  obtain ⟨-, hattributes, -⟩ := h
  rw [StartTag.declaresDefault, StartTag.declaresDefault]
  generalize t'.attributes = attributes', t.attributes = attributes at hattributes
  induction hattributes with
  | nil => rfl
  | cons ha _ ih => rw [List.any_cons, List.any_cons, ha.1, ih]

theorem Mark.Related.isLiteral (h : m'.Related V m) : m'.isLiteral = m.isLiteral := by
  cases h <;> rfl

/-- The text behind a start tag is a related text, if the relation tells what it is. -/
theorem WritesText.of_related {v w after' after : List Char} {rest' rest : List Segment}
    (h : WritesText v after rest) (hafter : V after' after)
    (hrest : List.Forall₂ (Segment.Related V) rest' rest) (hv : ∀ {v'}, V v' v → v' = w)
    (hnone : ∀ {v'}, V v' [] → v' = []) : WritesText w after' rest' := by
  have hnext : ∀ {rest' rest : List Segment}, List.Forall₂ (Segment.Related V) rest' rest →
      (∀ s ∈ rest.head?, s.mark.isLiteral = false) → ∀ s ∈ rest'.head?, s.mark.isLiteral = false := by
    intro rest' rest hrest hnext s' hs'
    cases hrest with
    | nil => cases hs'
    | cons hs _ =>
      obtain rfl := Option.some.inj hs'
      rw [hs.mark.isLiteral]
      exact hnext _ rfl
  cases h with
  | plain next =>
    obtain rfl := hv hafter
    exact .plain (hnext hrest next)
  | literal next =>
    obtain rfl := hnone hafter
    cases hrest with
    | cons hs hrest =>
      rename_i s' rest'
      obtain ⟨mark, text⟩ := s'
      obtain ⟨hmark, htext⟩ := hs
      obtain rfl : text = [] := hnone htext
      dsimp only at hmark
      cases hmark with
      | literal value =>
        obtain rfl := hv value
        exact .literal (hnext hrest next)

/-! ## Open tags -/

theorem exists_nest_of_related {tags' tags : List StartTag}
    (htags : List.Forall₂ (StartTag.Related V) tags' tags) (hm : m'.Related V m)
    {next : List StartTag} (h : m.nest tags = some next) :
    ∃ next', m'.nest tags' = some next' ∧ List.Forall₂ (StartTag.Related V) next' next := by
  cases hm with
  | start tag =>
    rw [Mark.nest] at h ⊢
    rw [htags.length_eq, tag.closed]
    split at h
    · cases h
    · rename_i hdepth
      obtain rfl := Option.some.inj h
      rw [if_neg hdepth]
      refine ⟨_, rfl, ?_⟩
      split
      · exact htags
      · exact .cons tag htags
  | stop =>
    obtain rfl := Option.some.inj h
    refine ⟨_, rfl, ?_⟩
    cases htags with
    | nil => exact .nil
    | cons _ htags => exact htags
  | _ =>
    obtain rfl := Option.some.inj h
    exact ⟨_, rfl, htags⟩

/-- The same tags are open behind related segments. -/
theorem exists_openTags_of_related {tags' tags : List StartTag} {before' before : List Segment}
    (htags : List.Forall₂ (StartTag.Related V) tags' tags)
    (hbefore : List.Forall₂ (Segment.Related V) before' before) {next : List StartTag}
    (h : openTags tags before = some next) :
    ∃ next', openTags tags' before' = some next' ∧
      List.Forall₂ (StartTag.Related V) next' next := by
  induction hbefore generalizing tags' tags with
  | nil =>
    obtain rfl := Option.some.inj h
    exact ⟨tags', rfl, htags⟩
  | cons hs _ ih =>
    rw [openTags] at h ⊢
    split at h
    · cases h
    · rename_i hempty
      obtain ⟨middle, hmiddle, hnext⟩ := Option.bind_eq_some_iff.mp h
      obtain ⟨middle', hmiddle', htags'⟩ := exists_nest_of_related htags hs.mark hmiddle
      have hempty' : ¬ tags'.isEmpty = true := by
        rw [List.isEmpty_iff_length_eq_zero, htags.length_eq, ← List.isEmpty_iff_length_eq_zero]
        exact hempty
      rw [if_neg hempty', hmiddle', Option.bind_some]
      exact ih htags' hnext

namespace Document.Related

variable {d' d : Document}

/-- What is written at a place of a document is written at a place of a related one. -/
theorem places (h : d'.Related V d) {t : StartTag} {tags : List StartTag} {after : List Char}
    {rest : List Segment} (hplaces : d.Places t tags after rest) :
    ∃ t' tags' after' rest', d'.Places t' tags' after' rest' ∧ t'.Related V t ∧
      List.Forall₂ (StartTag.Related V) tags' tags ∧ V after' after ∧
      List.Forall₂ (Segment.Related V) rest' rest := by
  obtain ⟨⟨before, hsegments, hopen⟩, hinside, hdepth⟩ := hplaces
  have hrelated := h.segments
  rw [hsegments] at hrelated
  obtain ⟨before', behind', hsegments', hbefore, hbehind⟩ := exists_append_of_forall₂ hrelated
  have hroot : List.Forall₂ (StartTag.Related V) (if d'.root.closed then [] else [d'.root])
      (if d.root.closed then [] else [d.root]) := by
    rw [h.root.closed]
    split
    · exact .nil
    · exact .cons h.root .nil
  obtain ⟨tags', hopen', htags⟩ := exists_openTags_of_related hroot hbefore hopen
  cases hbehind with
  | cons hs hrest =>
    rename_i s' rest'
    obtain ⟨mark, after'⟩ := s'
    obtain ⟨hmark, hafter⟩ := hs
    dsimp only at hmark hafter
    cases hmark with
    | start tag =>
      refine ⟨_, tags', after', rest', ⟨⟨before', hsegments', hopen'⟩, fun hnone => ?_, ?_⟩, tag, htags,
        hafter, hrest⟩
      · rw [hnone] at htags
        cases htags
        exact hinside rfl
      · rw [htags.length_eq]
        exact hdepth

/-- The same with some of the tags around the place. -/
theorem places_inside (h : d'.Related V d) {t : StartTag} {tags inside : List StartTag}
    {after : List Char} {rest : List Segment} (hplaces : d.Places t tags after rest)
    (hinside : inside.Sublist tags.dropLast) :
    ∃ t' tags' after' rest' inside', d'.Places t' tags' after' rest' ∧
      inside'.Sublist tags'.dropLast ∧
      List.Forall₂ (StartTag.Related V) (t' :: inside') (t :: inside) ∧ V after' after ∧
      List.Forall₂ (Segment.Related V) rest' rest := by
  obtain ⟨t', tags', after', rest', hplaces', ht, htags, hafter, hrest⟩ := h.places hplaces
  have hdrop : List.Forall₂ (StartTag.Related V) tags'.dropLast tags.dropLast := by
    rw [List.dropLast_eq_take, List.dropLast_eq_take, htags.length_eq]
    exact List.forall₂_take _ htags
  obtain ⟨inside', hinside', hrelated⟩ := exists_sublist_of_forall₂ hdrop hinside
  exact ⟨t', tags', after', rest', inside', hplaces', hinside', .cons ht hrelated, hafter, hrest⟩

theorem startTags (h : d'.Related V d) :
    List.Forall₂ (StartTag.Related V) d'.startTags d.startTags := by
  refine .cons h.root ?_
  have hsegments := h.segments
  generalize d'.segments = segments', d.segments = segments at hsegments
  induction hsegments with
  | nil => exact .nil
  | cons hs _ ih =>
    rename_i s' s _ _ _
    obtain ⟨mark', after'⟩ := s'
    obtain ⟨mark, after⟩ := s
    rw [List.filterMap_cons, List.filterMap_cons]
    cases (hs.mark : mark'.Related V mark) with
    | start tag => exact .cons tag ih
    | _ => exact ih

/-- Whether a default namespace is declared does not depend on values. -/
theorem forall_declaresDefault (h : d'.Related V d)
    (hd : ∀ t ∈ d.startTags, t.declaresDefault = false) :
    ∀ t ∈ d'.startTags, t.declaresDefault = false := by
  intro t' ht'
  obtain ⟨t, ht, hrelated⟩ := exists_mem_of_forall₂ h.startTags ht'
  rw [hrelated.declaresDefault]
  exact hd t ht

/-- A document that is read byte by byte is related too, if this leaves related values alone. -/
theorem inBytes (h : d'.Related V d) (hbytes : ∀ {v' v}, V v' v → V (bytewiseText v') v) :
    d'.inBytes.Related V d := by
  have htag : ∀ {t' t : StartTag}, t'.Related V t → t'.inBytes.Related V t := by
    intro t' t ht
    refine ⟨ht.name, ?_, ht.closed⟩
    rw [StartTag.inBytes, List.forall₂_map_left_iff]
    exact ht.attributes.imp fun _ _ ha => ⟨ha.1, hbytes ha.2⟩
  refine ⟨htag h.root, ?_⟩
  rw [Document.inBytes, List.forall₂_map_left_iff]
  refine h.segments.imp fun s' s hs => ⟨?_, hbytes hs.after⟩
  obtain ⟨mark', after'⟩ := s'
  obtain ⟨mark, after⟩ := s
  cases (hs.mark : mark'.Related V mark) with
  | start tag => exact .start (htag tag)
  | stop => exact .stop _ _ _ _
  | literal value => exact .literal (hbytes value)
  | comment => exact .comment _ _
  | instruction => exact .instruction _ _ _ _ _ _
  | doctype => exact .doctype _ _

theorem decoded (h : d'.Related V d) (hbytes : ∀ {v' v}, V v' v → V (bytewiseText v') v) :
    d'.decoded.Related V d := by
  rw [Document.decoded]
  split
  · exact h.inBytes hbytes
  · exact h

end Document.Related

end Related

end DesignAudit.Markup
