import DesignAudit.Proofs.Markup.Places
import DesignAudit.Proofs.Traversal

/-!
# Elements of a written document

A start tag of a written document is an element of its tree. Where no default namespace is declared,
the element has the name that is written, and an attribute has the value that is written if nothing in
it is read otherwise (`Shows`). The element lies in the elements of the tags that are open around it
(`Document.exists_sites`), and text behind the tag is its text (`Document.exists_sites_of_text`).
-/

namespace DesignAudit.Markup

open Traversal

/-! ## Names -/

/-- A name of letters, other than that of the declaration of the default namespace. -/
def IsLettered (name : String) : Prop := name ≠ "xmlns" ∧ ∀ c ∈ name.toList, c.isAlpha = true

instance (name : String) : Decidable (IsLettered name) :=
  inferInstanceAs (Decidable (name ≠ "xmlns" ∧ ∀ c ∈ name.toList, c.isAlpha = true))

section Names

variable {name p l : List Char} {label : String} {namespaces : List (String × String)}

theorem splitName_of_not_mem (h : ':' ∉ name) : splitName name = (none, name) := by
  have hall : ∀ c ∈ name, (c != ':') = true := fun c hc => bne_iff_ne.mpr fun heq => h (heq ▸ hc)
  rw [splitName, List.span_eq_takeWhile_dropWhile, List.takeWhile_eq_self_iff.mpr hall,
    List.dropWhile_eq_nil_iff.mpr hall]

theorem mem_of_splitName (h : splitName name = (some p, l)) : ':' ∈ name := by
  by_contra hnot
  rw [splitName_of_not_mem hnot] at h
  cases h

theorem eq_of_splitName (h : splitName name = (none, l)) : l = name := by
  rw [splitName] at h
  split at h
  · split at h
    · exact (Prod.mk.inj h).2.symm
    · cases h
  · exact (Prod.mk.inj h).2.symm

theorem IsLettered.not_mem {c : Char} (h : IsLettered label) (hc : c.isAlpha = false) :
    c ∉ label.toList := fun hmem => by
  rw [h.2 c hmem] at hc
  cases hc

theorem IsLettered.declaredPrefix? (h : IsLettered label) :
    Markup.declaredPrefix? label.toList = none := by
  rw [Markup.declaredPrefix?, splitName_of_not_mem (h.not_mem (by decide))]
  simp [h.1]

/-- Without a default namespace the name of an element is the name that is written. -/
theorem qualify_element (h : IsLettered label) (hdefault : namespaces.lookup "" = none) :
    qualify namespaces true label.toList = label := by
  rw [qualify, splitName_of_not_mem (h.not_mem (by decide))]
  simp [hdefault]

/-- An attribute has a name of letters only if this name is written. -/
theorem qualify_attribute_iff (h : IsLettered label) :
    qualify namespaces false name = label ↔ name = label.toList := by
  have hspace : ∀ uri l : String, "\x7b" ++ uri ++ "\x7d" ++ l ≠ label := by
    rintro uri l rfl
    exact h.not_mem (c := '\x7b') (by decide) (by simp)
  rw [qualify]
  split
  · rename_i l hsplit
    rw [eq_of_splitName hsplit, if_neg Bool.false_ne_true]
    exact ⟨fun heq => by rw [← heq, String.toList_ofList], fun heq => by rw [heq, String.ofList_toList]⟩
  · rename_i hsplit
    have hne : name ≠ label.toList := fun heq =>
      h.not_mem (c := ':') (by decide) (heq ▸ mem_of_splitName hsplit)
    refine iff_of_false ?_ hne
    split
    · exact hspace _ _
    · split
      · exact hspace _ _
      · exact fun heq => hne (by rw [← heq, String.toList_ofList])

end Names

/-! ## Attributes -/

theorem lookup_firstOfEach (attributes : List (String × String)) (key : String) :
    (firstOfEach attributes).lookup key = attributes.lookup key := by
  have hfold : ∀ kept : List (String × String), (attributes.foldl (fun kept a =>
      if (kept.lookup a.1).isSome then kept else kept ++ [a]) kept).lookup key =
        (kept.lookup key).or (attributes.lookup key) := by
    induction attributes with
    | nil => intro kept; simp
    | cons a attributes ih =>
      intro kept
      obtain ⟨name, value⟩ := a
      rw [List.foldl_cons, ih, List.lookup_cons]
      by_cases hkey : key = name
      · -- the attribute is kept exactly if none of its name is kept already
        subst hkey
        cases hkept : kept.lookup key with
        | some value => simp [hkept]
        | none => simp [hkept, List.lookup_append]
      · have hne : (key == name) = false := beq_eq_false_iff_ne.mpr hkey
        split
        · simp [hne]
        · simp [hne, List.lookup_append, List.lookup_cons]
  exact hfold []

/-- A value without references and white space is read as it is. -/
theorem value_valueRead {quote : Char} {value : List Char} (hvalue : IsValue quote value)
    (hplain : ∀ c ∈ value, c ≠ '&' ∧ isSpace c = false) :
    (valueRead quote value).value = value := by
  have hread : ∀ fuel, value.length < fuel →
      (attributeValue quote fuel (value ++ [quote])).value = value := by
    induction value with
    | nil =>
      intro fuel hfuel
      obtain ⟨k, rfl⟩ := Nat.exists_eq_add_one.mpr (Nat.zero_lt_of_lt hfuel)
      simp [attributeValue]
    | cons c value ih =>
      intro fuel hfuel
      obtain ⟨⟨hne, hopen, hlegal⟩, hvalue⟩ := List.forall_mem_cons.mp hvalue
      obtain ⟨⟨hamp, hspace⟩, hplain⟩ := List.forall_mem_cons.mp hplain
      obtain ⟨k, rfl⟩ := Nat.exists_eq_add_one.mpr (Nat.zero_lt_of_lt hfuel)
      have hreturn : c ≠ '\r' := by
        rintro rfl
        cases hspace
      rw [List.cons_append, attributeValue_cons hne hopen hlegal, if_neg hamp,
        if_neg fun h => hreturn h.1]
      simp only [hspace, Bool.false_eq_true, if_false]
      rw [ih hvalue hplain k (Nat.lt_of_succ_lt_succ hfuel)]
  exact hread _ (Nat.lt_succ_self _)

theorem IsVerbatim.plain {w : List Char} (h : IsVerbatim w) :
    ∀ c ∈ w, c ≠ '&' ∧ isSpace c = false := by
  intro c hc
  obtain ⟨hplain, hspace, -⟩ := h c hc
  refine ⟨?_, hspace⟩
  rintro rfl
  cases hplain

namespace StartTag

/-- The value that is written for an attribute. -/
def value? (t : StartTag) (key : String) : Option (List Char) :=
  (t.attributes.find? (·.name == key.toList)).map (·.value)

/-- Whether a start tag declares a default namespace. -/
def declaresDefault (t : StartTag) : Bool :=
  t.attributes.any fun a => declaredPrefix? a.name == some ""

theorem lookup_declared {t : StartTag} (h : t.declaresDefault = false) :
    t.declared.lookup "" = none := by
  rw [List.lookup_eq_none_iff]
  rintro ⟨p, uri⟩ hmem
  obtain ⟨a, ha, hdeclared⟩ := List.mem_filterMap.mp hmem
  obtain ⟨b, hb, rfl⟩ := List.mem_map.mp ha
  obtain ⟨q, hq, heq⟩ := Option.map_eq_some_iff.mp hdeclared
  obtain ⟨rfl, -⟩ := Prod.mk.inj heq
  rw [bne_iff_ne]
  rintro rfl
  have hnone := List.any_eq_false.mp h b hb
  exact hnone (beq_iff_eq.mpr hq)

/-- The first attribute of a name is the one that is kept. -/
theorem lookup_kept {t : StartTag} (ht : t.WellFormed) {key : String} (hkey : IsLettered key)
    {w : List Char} (hw : IsVerbatim w) (h : t.value? key = some w)
    (namespaces : List (String × String)) :
    (t.kept namespaces).lookup key = some (String.ofList w) := by
  rw [kept, lookup_firstOfEach]
  have hvalues := ht.attributes
  rw [value?] at h
  generalize t.attributes = attributes at h hvalues
  induction attributes with
  | nil => cases h
  | cons a attributes ih =>
    obtain ⟨ha, hrest⟩ := List.forall_mem_cons.mp hvalues
    rw [List.find?_cons] at h
    rw [List.map_cons, List.filterMap_cons]
    by_cases hname : a.name = key.toList
    · rw [hname, beq_self_eq_true] at h
      obtain rfl : a.value = w := Option.some.inj h
      simp only [WrittenAttribute.read, hname, hkey.declaredPrefix?, Option.isSome_none,
        Bool.false_eq_true, if_false, (qualify_attribute_iff hkey).mpr rfl, List.lookup_cons,
        beq_self_eq_true, value_valueRead ha.value hw.plain]
    · rw [beq_eq_false_iff_ne.mpr hname] at h
      have hlater := ih h hrest
      split
      · exact hlater
      · rename_i b hb
        obtain ⟨-, heq⟩ := Option.ite_none_left_eq_some.mp hb
        obtain rfl := Option.some.inj heq
        have hne : (key == qualify namespaces false a.name) = false :=
          beq_eq_false_iff_ne.mpr fun heq => hname ((qualify_attribute_iff hkey).mp heq.symm)
        rw [List.lookup_cons]
        simp only [WrittenAttribute.read, hne]
        exact hlater

end StartTag

/-! ## Elements -/

/-- An element shows a start tag: it has the name of the tag and the values of its attributes, as far
as these are read as they are written. -/
structure Shows (s : Site) (t : StartTag) : Prop where
  tag : ∀ {label : String}, IsLettered label → t.name = label.toList → s.tag = label
  value : ∀ {key : String} {w : List Char}, IsLettered key → IsVerbatim w →
    t.value? key = some w → s.node.attr? key = some (String.ofList w)

theorem lookup_namespacesOf {tags : List StartTag} (h : ∀ t ∈ tags, t.declaresDefault = false) :
    (namespacesOf tags).lookup "" = none := by
  induction tags with
  | nil => rfl
  | cons t tags ih =>
    obtain ⟨ht, htags⟩ := List.forall_mem_cons.mp h
    rw [namespacesOf, List.flatMap_cons, ← namespacesOf, List.lookup_append,
      StartTag.lookup_declared ht, ih htags, Option.or_none]

/-- What elements that start tags have opened have become shows these tags. -/
theorem forall₂_shows {stack : List OpenElement} {tags : List StartTag} {sites : List Site}
    (hopened : OpenedBy stack tags) (htags : ∀ t ∈ tags, t.WellFormed ∧ t.declaresDefault = false)
    (hbecomes : List.Forall₂ (fun e s => e.Becomes s.node) stack sites) :
    List.Forall₂ Shows sites tags := by
  induction hopened generalizing sites with
  | nil =>
    cases hbecomes
    exact .nil
  | cons outer namespaces tag attributes ih =>
    rename_i e stack t tags
    cases hbecomes with
    | cons he hrest =>
      obtain ⟨⟨ht, -⟩, hrestTags⟩ := List.forall_mem_cons.mp htags
      have hdefault := lookup_namespacesOf fun u hu => (htags u hu).2
      refine .cons ⟨fun hlabel hname => ?_, fun hkey hw hvalue => ?_⟩ (ih hrestTags hrest)
      · rw [Site.tag, he.tag, tag, hname, qualify_element hlabel hdefault]
      · rw [Node.attr?, he.attributes, attributes]
        exact StartTag.lookup_kept ht hkey hw hvalue _

/-- Elements that show start tags, each of them below the next one and all of them below the root. -/
structure ShowsInside (tree : Node) (sites : List Site) (tags : List StartTag) : Prop where
  shown : List.Forall₂ Shows sites tags
  below : (sites ++ [Site.root tree]).Pairwise fun inner outer => inner ∈ outer.below

/-- The innermost open element, and those of some of the tags around it within the root. -/
theorem exists_showsInside {tree n : Node} {stack : List OpenElement} {t : StartTag}
    {tags inside : List StartTag} (hopened : OpenedBy stack (t :: tags))
    (hspine : Spine tree stack n)
    (htags : ∀ u ∈ t :: tags, u.WellFormed ∧ u.declaresDefault = false) (hne : tags ≠ [])
    (hinside : inside.Sublist tags.dropLast) :
    ∃ s sites, s.node = n ∧ ShowsInside tree (s :: sites) (t :: inside) := by
  obtain ⟨s, sites, hnode, hbecomes, hbelow, hlast⟩ := hspine.exists_sites
  have hshows := forall₂_shows hopened htags hbecomes
  cases hshows with
  | cons hs hshows =>
    -- the last of the sites is the root, and belongs to the last of the tags
    obtain ⟨us, u, rfl⟩ := (List.eq_nil_or_concat tags).resolve_left hne
    rw [List.concat_eq_append] at hshows hinside
    rw [List.dropLast_concat] at hinside
    obtain ⟨inner, last, rfl, hinner, hroot⟩ := exists_append_of_forall₂ hshows
    obtain ⟨r, -, rfl⟩ : ∃ r, Shows r u ∧ last = [r] := by
      cases hroot with
      | cons hr hnil =>
        cases hnil
        exact ⟨_, hr, rfl⟩
    obtain rfl : r = Site.root tree := by
      rw [← List.cons_append, List.getLast?_concat] at hlast
      exact Option.some.inj hlast
    obtain ⟨vs, hvs, hrel⟩ := exists_sublist_of_forall₂ hinner hinside
    refine ⟨s, vs, hnode, .cons hs hrel, hbelow.sublist ?_⟩
    exact (hvs.append_right _).cons_cons s

/-! ## Documents -/

/-- The start tag that a piece of markup is, if it is one. -/
def Mark.startTag? : Mark → Option StartTag
  | start t => some t
  | _ => none

namespace Document

def startTags (d : Document) : List StartTag :=
  d.root :: d.segments.filterMap (·.mark.startTag?)

/-- A start tag stands in a document, with the given tags open around it, and text and further segments
behind it. -/
structure Places (d : Document) (t : StartTag) (tags : List StartTag) (after : List Char)
    (rest : List Segment) : Prop where
  segments : ∃ before, d.segments = before ++ ⟨.start t, after⟩ :: rest ∧
    d.openTags before = some tags
  inside : tags ≠ []
  depth : ¬ Reading.depthLimit < tags.length

theorem mem_startTags_of_openTags {tags next : List StartTag} {before : List Segment}
    (h : Markup.openTags tags before = some next) :
    ∀ t ∈ next, t ∈ tags ∨ t ∈ before.filterMap (·.mark.startTag?) := by
  induction before generalizing tags with
  | nil =>
    obtain rfl := Option.some.inj h
    exact fun t ht => .inl ht
  | cons s before ih =>
    rw [Markup.openTags] at h
    split at h
    · cases h
    · obtain ⟨middle, hmiddle, hnext⟩ := Option.bind_eq_some_iff.mp h
      have hmem : ∀ t ∈ middle, t ∈ tags ∨ s.mark.startTag? = some t := by
        intro t ht
        cases hmark : s.mark with
        | start u =>
          rw [hmark, Mark.nest] at hmiddle
          split at hmiddle
          · cases hmiddle
          · obtain rfl := Option.some.inj hmiddle
            split at ht
            · exact .inl ht
            · rcases List.mem_cons.mp ht with rfl | ht
              · exact .inr rfl
              · exact .inl ht
        | stop name space =>
          rw [hmark] at hmiddle
          obtain rfl := Option.some.inj hmiddle
          exact .inl (List.mem_of_mem_tail ht)
        | _ =>
          rw [hmark] at hmiddle
          obtain rfl := Option.some.inj hmiddle
          exact .inl ht
      intro t ht
      rcases ih hnext t ht with ht | ht
      · rcases hmem t ht with ht | ht
        · exact .inl ht
        · exact .inr (List.mem_filterMap.mpr ⟨s, List.mem_cons_self, ht⟩)
      · obtain ⟨s', hs', ht⟩ := List.mem_filterMap.mp ht
        exact .inr (List.mem_filterMap.mpr ⟨s', List.mem_cons_of_mem s hs', ht⟩)

variable {d : Document} {t : StartTag} {tags inside : List StartTag} {after : List Char}
  {rest : List Segment}

/-- A start tag and those around it are start tags of the document. -/
theorem Places.mem_startTags (h : d.Places t tags after rest) :
    ∀ u ∈ t :: tags, u ∈ d.startTags := by
  obtain ⟨before, hsegments, hopen⟩ := h.segments
  have hstart : ∀ {u : StartTag} {s : Segment}, s ∈ d.segments → s.mark.startTag? = some u →
      u ∈ d.startTags := fun hs hu =>
    List.mem_cons_of_mem _ (List.mem_filterMap.mpr ⟨_, hs, hu⟩)
  rw [List.forall_mem_cons]
  refine ⟨hstart (s := ⟨.start t, after⟩) (by rw [hsegments]; simp) rfl, fun u hu => ?_⟩
  rcases mem_startTags_of_openTags hopen u hu with hu | hu
  · split at hu
    · cases hu
    · obtain rfl := List.mem_singleton.mp hu
      exact List.mem_cons_self
  · obtain ⟨s, hs, hu⟩ := List.mem_filterMap.mp hu
    exact hstart (by rw [hsegments]; exact List.mem_append_left _ hs) hu

theorem wellFormed_of_mem_startTags (hd : d.WellFormed) (h : t ∈ d.startTags) : t.WellFormed := by
  rcases List.mem_cons.mp h with rfl | h
  · exact hd.root
  · obtain ⟨s, hs, ht⟩ := List.mem_filterMap.mp h
    have hmark := (hd.segments s hs).1
    cases hkind : s.mark with
    | start u =>
      rw [hkind] at hmark ht
      obtain rfl := Option.some.inj ht
      exact hmark
    | _ =>
      rw [hkind] at ht
      cases ht

/-- A start tag and those around it can be read, and declare no default namespace if none of the
document does. -/
theorem Places.wellFormed (h : d.Places t tags after rest) (hd : d.WellFormed)
    (hdefault : ∀ u ∈ d.startTags, u.declaresDefault = false) :
    ∀ u ∈ t :: tags, u.WellFormed ∧ u.declaresDefault = false := fun u hu =>
  ⟨wellFormed_of_mem_startTags hd (h.mem_startTags u hu), hdefault u (h.mem_startTags u hu)⟩

/-- A document in an encoding that can be read has been read as a tree. -/
structure ReadAs (d : Document) (n : Node) : Prop where
  wellFormed : d.WellFormed
  asciiNames : HasAsciiNames d
  encoded : d.Encoded
  known : isKnownEncoding (declaredEncoding? d.text) = true
  read : Markup.read (String.ofList d.text) = .ok (some n)

section Read

variable {n : Node} (hread : d.ReadAs n) (hplaces : d.decoded.Places t tags after rest)

include hread hplaces

/-- The reader comes to each place of a document. -/
theorem exists_reading : ∃ r k, (Reading.content k r).finish = some n ∧
    StandsBefore tags (⟨.start t, after⟩ :: rest) r ∧ r.rest.length < k := by
  obtain ⟨hd, hascii, hencoded, hknown, hread⟩ := hread
  obtain ⟨r, fuel, hresult, hrest, hsize, hfuel, hstack, hroot⟩ :=
    exists_read_eq hd hascii hencoded hknown
  obtain ⟨before, hsegments, hopen⟩ := hplaces.segments
  obtain ⟨r', k, hcontent, hstands, hk⟩ := exists_standsBefore (wellFormed_decoded hd) hsegments hopen
    hplaces.inside hrest hsize hstack hroot hfuel
  rw [hresult, hcontent] at hread
  exact ⟨r', k, Except.ok.inj hread, hstands, hk⟩

variable (hdefault : ∀ u ∈ d.decoded.startTags, u.declaresDefault = false)

include hdefault

/-- A start tag is shown by an element that lies in those of the tags around it. -/
theorem exists_sites (hinside : inside.Sublist tags.dropLast) :
    ∃ s sites, ShowsInside n (s :: sites) (t :: inside) := by
  have htags := hplaces.wellFormed (wellFormed_decoded hread.wellFormed) hdefault
  obtain ⟨r, k, hfinish, hstands, hk⟩ := exists_reading hread hplaces
  obtain ⟨stack, m, hopened, hspine⟩ := exists_spine_of_start (htags t List.mem_cons_self).1 hstands
    hplaces.inside hplaces.depth hk hfinish
  obtain ⟨s, sites, -, hshows⟩ :=
    exists_showsInside hopened hspine htags hplaces.inside hinside
  exact ⟨s, sites, hshows⟩

/-- The text behind a start tag is the text of the element. -/
theorem exists_sites_of_text (hinside : inside.Sublist tags.dropLast) (hopen : t.closed = false)
    {w : List Char} (hw : IsVerbatim w) (hne : w ≠ []) (hwrites : WritesText w after rest) :
    ∃ s sites, s.node.text = some (String.ofList w) ∧
      ShowsInside n (s :: sites) (t :: inside) := by
  have hd := wellFormed_decoded hread.wellFormed
  have htags := hplaces.wellFormed hd hdefault
  obtain ⟨r, k, hfinish, hstands, hk⟩ := exists_reading hread hplaces
  have hrest : ∀ s ∈ rest, s.WellFormed := by
    obtain ⟨before, hsegments, -⟩ := hplaces.segments
    intro s hs
    exact hd.segments s (by rw [hsegments]; simp [hs])
  obtain ⟨stack, m, hopened, hspine, htext⟩ := exists_spine_of_text (htags t List.mem_cons_self).1
    hopen hrest hstands hplaces.inside hplaces.depth hk hfinish hw hne hwrites
  obtain ⟨s, sites, rfl, hshows⟩ :=
    exists_showsInside hopened hspine htags hplaces.inside hinside
  exact ⟨s, sites, htext, hshows⟩

end Read

end Document

end DesignAudit.Markup
