import DesignAudit.Proofs.Markup.Content
import DesignAudit.Proofs.Text.LineEnd

/-!
# Places in a written document

At each place in a written document some start tags are open. The reader has an open element for each
of them then, with the name and the attributes of the tag (`exists_standsBefore`). What is open stays,
so that the open elements are those on a way down the tree (`exists_spine_of_start`); and text that
follows a start tag is the text of the innermost of them (`exists_spine_of_text`).
-/

namespace DesignAudit.Markup

open Text (unifyLineEnds unifyLineEnds_eq_self)

/-! ## Open tags -/

namespace Mark

/-- The start tags that are open behind a piece of markup, innermost first; nothing where an element
would lie too deep. -/
def nest (tags : List StartTag) : Mark → Option (List StartTag)
  | start t =>
    if Reading.depthLimit < tags.length then none
    else some (if t.closed then tags else t :: tags)
  | stop _ _ => some tags.tail
  | _ => some tags

/-- Whether a piece of markup is literal text. -/
def isLiteral : Mark → Bool
  | literal _ => true
  | _ => false

end Mark

/-- The start tags that are open behind some segments; nothing where the reading has come to its end
before. -/
def openTags : List StartTag → List Segment → Option (List StartTag)
  | tags, [] => some tags
  | tags, s :: rest =>
    if tags.isEmpty then none else (s.mark.nest tags).bind fun next => openTags next rest

namespace StartTag

/-- The namespaces that a start tag declares. -/
def declared (t : StartTag) : List (String × String) :=
  (t.attributes.map WrittenAttribute.read).filterMap fun a =>
    (declaredPrefix? a.1).map (·, String.ofList a.2)

/-- The attributes that a start tag gives to its element. -/
def kept (t : StartTag) (namespaces : List (String × String)) : List (String × String) :=
  firstOfEach <| (t.attributes.map WrittenAttribute.read).filterMap fun a =>
    if (declaredPrefix? a.1).isSome then none
    else some (qualify namespaces false a.1, String.ofList a.2)

end StartTag

/-- The namespaces in force where some start tags are open. -/
def namespacesOf (tags : List StartTag) : List (String × String) := tags.flatMap StartTag.declared

/-- Elements that have been opened by start tags. -/
inductive OpenedBy : List OpenElement → List StartTag → Prop where
  | nil : OpenedBy [] []
  | cons {e : OpenElement} {stack : List OpenElement} {t : StartTag} {tags : List StartTag}
      (outer : OpenedBy stack tags) (namespaces : e.namespaces = namespacesOf (t :: tags))
      (tag : e.tag = qualify (namespacesOf (t :: tags)) true t.name)
      (attributes : e.attributes = t.kept (namespacesOf (t :: tags))) :
      OpenedBy (e :: stack) (t :: tags)

namespace OpenedBy

variable {stack : List OpenElement} {tags : List StartTag} {e e' : OpenElement}

theorem length_eq (h : OpenedBy stack tags) : stack.length = tags.length := by
  induction h with
  | nil => rfl
  | cons _ _ _ _ ih => rw [List.length_cons, List.length_cons, ih]

theorem stack_ne_nil (h : OpenedBy stack tags) (htags : tags ≠ []) : stack ≠ [] := by
  rintro rfl
  cases h
  exact htags rfl

theorem tail (h : OpenedBy (e :: stack) tags) : OpenedBy stack tags.tail := by
  cases h with
  | cons outer _ _ _ => exact outer

/-- The innermost element can be replaced by one with the same name and the same attributes. -/
theorem replace (h : OpenedBy (e :: stack) tags) (htag : e'.tag = e.tag)
    (hattributes : e'.attributes = e.attributes) (hnamespaces : e'.namespaces = e.namespaces) :
    OpenedBy (e' :: stack) tags := by
  cases h with
  | cons outer namespaces tag attributes =>
    exact .cons outer (hnamespaces.trans namespaces) (htag.trans tag)
      (hattributes.trans attributes)

theorem openElement (h : OpenedBy stack tags) (t : StartTag) (line : Nat) :
    OpenedBy (Markup.openElement stack.head? t.name (t.attributes.map WrittenAttribute.read) line ::
      stack) (t :: tags) := by
  have houter : (stack.head?.map OpenElement.namespaces).getD [] = namespacesOf tags := by
    cases h with
    | nil => rfl
    | cons _ namespaces _ _ => exact namespaces
  have hnamespaces : (Markup.openElement stack.head? t.name
      (t.attributes.map WrittenAttribute.read) line).namespaces = namespacesOf (t :: tags) := by
    rw [namespacesOf, List.flatMap_cons, ← namespacesOf, ← houter]
    rfl
  refine .cons h hnamespaces ?_ ?_
  · rw [← hnamespaces]
    rfl
  · rw [← hnamespaces]
    rfl

theorem of_moreText {r s : Reading} (hmore : s.MoreText r) (h : OpenedBy r.stack tags) :
    OpenedBy s.stack tags := by
  obtain ⟨-, ⟨hr, hs⟩ | ⟨e, e', outer, hr, hs, he⟩⟩ := hmore
  · rw [hs, ← hr]
    exact h
  · rw [hr] at h
    rw [hs]
    exact h.replace he.tag he.attributes he.namespaces

/-- A move that leaves the number of open elements alone leaves their tags alone. -/
theorem of_moves {r s : Reading} (hmoves : r.Moves s) (hlength : s.stack.length = r.stack.length)
    (h : OpenedBy r.stack tags) : OpenedBy s.stack tags := by
  obtain ⟨size, line, rest, stack, root⟩ := r
  obtain ⟨size', line', rest', stack', root'⟩ := s
  dsimp only at hlength h ⊢
  cases (hmoves : Markup.Moves stack root stack' root') with
  | keeps => exact h
  | opens e => simp at hlength
  | adds n e outer => exact h.replace rfl rfl rfl
  | closes e d outer => simp at hlength
  | ends e => simp at hlength

end OpenedBy

/-! ## From place to place -/

/-- A reading stands before some segments, and has opened an element for each open tag. -/
structure StandsBefore (tags : List StartTag) (segments : List Segment) (r : Reading) : Prop where
  rest : r.rest = segments.flatMap Segment.text
  size : r.rest.length ≤ r.size
  opened : OpenedBy r.stack tags
  root : r.root = none

section Places

variable {tags : List StartTag} {segments rest : List Segment} {r : Reading} {fuel : Nat}

theorem StandsBefore.rest_cons {s : Segment} (h : StandsBefore tags (s :: rest) r) :
    r.rest = s.mark.text ++ (s.after ++ rest.flatMap Segment.text) := by
  rw [h.rest, List.flatMap_cons, Segment.text, List.append_assoc]

/-- The text before some segments is passed. -/
theorem exists_standsBefore_of_text {after : List Char} (hafter : '<' ∉ after)
    (hrest : r.rest = after ++ segments.flatMap Segment.text) (hsize : r.rest.length ≤ r.size)
    (hopened : OpenedBy r.stack tags) (hroot : r.root = none) (htags : tags ≠ [])
    (hfuel : r.rest.length < fuel) :
    ∃ s k, Reading.content fuel r = Reading.content k s ∧ StandsBefore tags segments s ∧
      s.rest.length < k := by
  obtain ⟨s, k, hcontent, hs, hk, -, hssize, hmore⟩ := exists_content_text hafter
    (head?_segments segments) hrest (hopened.stack_ne_nil htags) hfuel
  have hlength := congrArg List.length hrest
  rw [List.length_append] at hlength
  exact ⟨s, k, hcontent, ⟨hs, by rw [hs, hssize]; omega, hopened.of_moreText hmore,
    hmore.1.trans hroot⟩, hs ▸ hk⟩

theorem length_bare_stack (r : Reading) : r.bare.stack.length = r.stack.length := List.length_map _

theorem step_start {t : StartTag} (ht : t.WellFormed) {tail : List Char}
    (hrest : r.rest = (Mark.start t).text ++ tail) :
    r.step = Reading.startTag { r with rest := t.name ++ (t.inner ++ tail) } := by
  obtain ⟨c, cs, hname, hstart, -⟩ := exists_of_isName ht.name
  have hcons : r.rest = '<' :: c :: (cs ++ (t.inner ++ tail)) := by
    simp [hrest, Mark.text, StartTag.text, hname]
  rw [step_of_isNameStart hcons hstart, hname, List.cons_append]

/-- What the start tag of an element that does not lie too deep opens. -/
theorem exists_step_start {t : StartTag} (ht : t.WellFormed) {tail : List Char}
    (hrest : r.rest = (Mark.start t).text ++ tail) (hsize : r.rest.length ≤ r.size)
    (hdepth : ¬ Reading.depthLimit < r.stack.length) :
    ∃ line, r.step =
      if t.closed then
        Reading.place { r with line, rest := tail }
          (openElement r.stack.head? t.name (t.attributes.map WrittenAttribute.read) line).close
      else { r with
        line, rest := tail
        stack := openElement r.stack.head? t.name (t.attributes.map WrittenAttribute.read) line ::
          r.stack } := by
  have hlength := congrArg List.length hrest
  simp only [Mark.text, StartTag.text, List.length_append, List.length_cons] at hlength
  rw [step_start ht hrest]
  exact exists_startTag_eq ht (r := { r with rest := t.name ++ (t.inner ++ tail) }) rfl
    (by simp only [List.length_append]; omega) hdepth

variable {next : List StartTag} {m : Mark}

theorem not_literal_prefix (hm : m.WellFormed) (hwithin : m.withinRoot = true)
    (hliteral : m.isLiteral = false) (tail : List Char) :
    ∃ cs, m.text ++ tail = '<' :: cs ∧ ¬ "![CDATA[".toList <+: cs := by
  cases m with
  | start t =>
    obtain ⟨c, cs, hname, hstart, -⟩ := exists_of_isName hm.name
    refine ⟨t.name ++ t.inner ++ tail, rfl, fun h => ?_⟩
    rw [hname] at h
    exact ne_of_isNameStart hstart (by decide) (List.cons_prefix_cons.mp h).1.symm
  | stop name space =>
    exact ⟨_, rfl, fun h => absurd (List.cons_prefix_cons.mp h).1 (by decide)⟩
  | literal text => cases hliteral
  | comment text =>
    refine ⟨_, rfl, fun h => ?_⟩
    exact absurd (List.cons_prefix_cons.mp (List.cons_prefix_cons.mp h).2).1 (by decide)
  | instruction target space text =>
    exact ⟨_, rfl, fun h => absurd (List.cons_prefix_cons.mp h).1 (by decide)⟩
  | doctype text => cases hwithin

/-- A remark leaves the number of open elements alone. -/
theorem length_stack_of_remark {s : Reading} {kind : Kind} {label : String} {tail : List Char}
    (h : Follows (.remarks kind label) tail r s) (hstack : r.stack ≠ []) :
    s.stack.length = r.stack.length := by
  have hbare : s.bare = r.bare.place (.mk kind label [] none 0 []) := h.2.1
  rw [← length_bare_stack s, hbare]
  obtain ⟨size, line, rest, stack, root⟩ := r
  obtain ⟨e, outer, rfl⟩ := List.exists_cons_of_ne_nil hstack
  simp [Reading.bare, Reading.place]

/-- The open elements behind a piece of markup are those of the tags that are open there. -/
theorem openedBy_step (hm : m.WellFormed) (hwithin : m.withinRoot = true)
    {tail : List Char} (hrest : r.rest = m.text ++ tail) (hsize : r.rest.length ≤ r.size)
    (hopened : OpenedBy r.stack tags) (htags : tags ≠ [])
    (hnext : m.nest tags = some next) (hne : next ≠ []) : OpenedBy r.step.stack next := by
  have hstack := hopened.stack_ne_nil htags
  have hfollows := follows_step hm hwithin hrest hsize hstack
  cases m with
  | start t =>
    rw [Mark.nest] at hnext
    split at hnext
    · cases hnext
    · rename_i hdepth
      obtain rfl := Option.some.inj hnext
      rw [← hopened.length_eq] at hdepth
      obtain ⟨line, hstep⟩ := exists_step_start hm hrest hsize hdepth
      rw [hstep]
      cases t.closed with
      | false => exact hopened.openElement t line
      | true =>
        obtain ⟨size, place, text, stack, root⟩ := r
        obtain ⟨e, outer, rfl⟩ := List.exists_cons_of_ne_nil hstack
        exact hopened.replace rfl rfl rfl
  | stop name space =>
    obtain rfl := Option.some.inj hnext
    have hstep : r.step = Reading.endTag { r with rest := name ++ (space ++ '>' :: tail) } := by
      rw [Reading.step, hrest]
      simp [Mark.text]
    rw [hstep]
    obtain ⟨size, line, text, stack, root⟩ := r
    rcases stack with _ | ⟨e, _ | ⟨d, outer⟩⟩
    · exact absurd rfl hstack
    · cases hopened with
      | cons outer _ _ _ =>
        cases outer
        exact absurd rfl hne
    · exact hopened.tail.replace rfl rfl rfl
  | literal text =>
    obtain rfl := Option.some.inj hnext
    have hstep : r.step = r.literal (text ++ ']' :: ']' :: '>' :: tail) := by
      rw [Reading.step, hrest]
      simp [Mark.text]
    rw [hstep]
    exact hopened.of_moreText (moreText_literal r _)
  | comment text =>
    obtain rfl := Option.some.inj hnext
    obtain ⟨cs, hcs, hliteral⟩ := not_literal_prefix hm hwithin rfl tail
    exact hopened.of_moves (moves_step hstack (hrest.trans hcs) hliteral)
      (length_stack_of_remark hfollows hstack)
  | instruction target space text =>
    obtain rfl := Option.some.inj hnext
    obtain ⟨cs, hcs, hliteral⟩ := not_literal_prefix hm hwithin rfl tail
    exact hopened.of_moves (moves_step hstack (hrest.trans hcs) hliteral)
      (length_stack_of_remark hfollows hstack)
  | doctype text => cases hwithin

/-- What makes no change because it would lie too deep opens nothing. -/
theorem nest_of_apply (h : m.change.apply r.bare = none) (hopened : OpenedBy r.stack tags) :
    m.nest tags = none := by
  cases m with
  | start t =>
    simp only [Mark.change, Change.apply, length_bare_stack, hopened.length_eq] at h
    rw [Mark.nest, if_pos]
    by_contra hdepth
    rw [if_neg hdepth] at h
    cases h
  | stop name space =>
    simp only [Mark.change, Change.apply] at h
    split at h
    · cases h
    · cases h
  | literal text => cases h
  | comment text => cases h
  | instruction target space text => cases h
  | doctype text => cases h

theorem exists_standsBefore_of_segment {s : Segment} (hs : s.WellFormed)
    (hstands : StandsBefore tags (s :: rest) r) (htags : tags ≠ [])
    (hnext : s.mark.nest tags = some next) (hne : next ≠ []) (hfuel : r.rest.length < fuel) :
    ∃ r' k, Reading.content fuel r = Reading.content k r' ∧ StandsBefore next rest r' ∧
      r'.rest.length < k := by
  obtain ⟨hmark, hwithin, hafter⟩ := hs
  have hstack := hstands.opened.stack_ne_nil htags
  have hsplit := hstands.rest_cons
  have hopened := openedBy_step hmark hwithin hsplit hstands.size hstands.opened htags hnext hne
  have hstack' := hopened.stack_ne_nil hne
  have hmarkText : s.mark.text ≠ [] := text_ne_nil s.mark
  have hpos := List.length_pos_iff.mpr hmarkText
  have hlength := congrArg List.length hsplit
  rw [List.length_append] at hlength
  obtain ⟨hsize', hfollows⟩ := follows_step hmark hwithin hsplit hstands.size hstack
  have hrest : r.step.rest = s.after ++ rest.flatMap Segment.text := by
    cases hchange : s.mark.change.apply r.bare with
    | some b =>
      rw [hchange] at hfollows
      exact hfollows.2.resolve_right hstack'
    | none =>
      rw [nest_of_apply hchange hstands.opened] at hnext
      cases hnext
  obtain ⟨k, rfl⟩ : ∃ k, fuel = k + 1 := ⟨fuel - 1, by omega⟩
  rw [content_step (by simp [hsplit, hmarkText]) hstack]
  exact exists_standsBefore_of_text hafter hrest (by rw [hrest, hsize']; have := hstands.size; omega)
    hopened (root_step hstands.root hstack hstack') hne (by rw [hrest]; omega)

/-- Segments are passed one after the other. -/
theorem exists_standsBefore_of_segments {before : List Segment}
    (hbefore : ∀ s ∈ before, s.WellFormed) (hstands : StandsBefore tags (before ++ rest) r)
    (hnext : openTags tags before = some next) (hne : next ≠ []) (hfuel : r.rest.length < fuel) :
    ∃ r' k, Reading.content fuel r = Reading.content k r' ∧ StandsBefore next rest r' ∧
      r'.rest.length < k := by
  induction before generalizing tags r fuel with
  | nil =>
    obtain rfl := Option.some.inj hnext
    exact ⟨r, fuel, rfl, hstands, hfuel⟩
  | cons s before ih =>
    rw [openTags] at hnext
    split at hnext
    · cases hnext
    · rename_i htags
      rw [List.isEmpty_iff] at htags
      obtain ⟨middle, hmiddle, hnext⟩ := Option.bind_eq_some_iff.mp hnext
      have hmiddleNe : middle ≠ [] := by
        rintro rfl
        cases before with
        | nil => exact hne (Option.some.inj hnext).symm
        | cons s' before => cases hnext
      obtain ⟨hs, hrest⟩ := List.forall_mem_cons.mp hbefore
      obtain ⟨r₁, k₁, hcontent₁, hstands₁, hk₁⟩ :=
        exists_standsBefore_of_segment hs hstands htags hmiddle hmiddleNe hfuel
      obtain ⟨r₂, k₂, hcontent₂, hstands₂, hk₂⟩ := ih hrest hstands₁ hnext hk₁
      exact ⟨r₂, k₂, hcontent₁.trans hcontent₂, hstands₂, hk₂⟩

end Places

/-- The start tags that are open behind some segments of a document. -/
def Document.openTags (d : Document) (before : List Segment) : Option (List StartTag) :=
  Markup.openTags (if d.root.closed then [] else [d.root]) before

/-- Reading a document leads to each place at which a tag is open. -/
theorem exists_standsBefore {d : Document} (hd : d.WellFormed) {before rest : List Segment}
    (hsegments : d.segments = before ++ rest) {tags : List StartTag}
    (hopen : d.openTags before = some tags) (htags : tags ≠ []) {r : Reading}
    (hrest : r.rest = d.root.name ++ (d.root.inner ++ d.body)) (hsize : r.rest.length ≤ r.size)
    (hstack : r.stack = []) (hroot : r.root = none) {fuel : Nat} (hfuel : r.rest.length < fuel) :
    ∃ r' k, Reading.content fuel r.startTag = Reading.content k r' ∧ StandsBefore tags rest r' ∧
      r'.rest.length < k := by
  obtain ⟨line, hstart⟩ := exists_startTag_eq hd.root hrest hsize (by rw [hstack]; decide)
  rw [Document.openTags] at hopen
  cases hclosed : d.root.closed with
  | true =>
    -- nothing is open behind a root without content
    exfalso
    rw [hclosed, if_pos rfl] at hopen
    cases before with
    | nil => exact htags (Option.some.inj hopen).symm
    | cons s before => cases hopen
  | false =>
    rw [hclosed] at hopen hstart
    rw [if_neg Bool.false_ne_true] at hopen hstart
    have hlength := congrArg List.length hrest
    simp only [List.length_append] at hlength
    have hopened : OpenedBy r.startTag.stack [d.root] := by
      rw [hstart, hstack]
      exact OpenedBy.nil.openElement d.root line
    have htext : r.startTag.rest = d.after ++ d.segments.flatMap Segment.text := by
      rw [hstart]
      rfl
    have hshort : r.startTag.rest.length ≤ r.startTag.size ∧ r.startTag.rest.length < fuel := by
      rw [hstart]
      dsimp only
      omega
    obtain ⟨r₁, k₁, hcontent₁, hstands₁, hk₁⟩ :=
      exists_standsBefore_of_text hd.after htext hshort.1 hopened (by rw [hstart]; exact hroot)
        (List.cons_ne_nil _ _) hshort.2
    rw [hsegments] at hstands₁
    obtain ⟨r₂, k₂, hcontent₂, hstands₂, hk₂⟩ := exists_standsBefore_of_segments
      (fun s hs => hd.segments s (hsegments ▸ List.mem_append_left rest hs)) hstands₁ hopen htags hk₁
    exact ⟨r₂, k₂, hcontent₁.trans hcontent₂, hstands₂, hk₂⟩

/-! ## What is open stays -/

section Stays

variable {tags : List StartTag} {rest : List Segment} {r : Reading} {fuel : Nat} {tree : Node}
  {w : List Char} {outer : List OpenElement}

/-- The text before the first child is settled once no more text follows. -/
theorem exists_spine_of_moves {e : OpenElement} (hroot : r.root = none)
    (hstack : r.stack = e :: outer) (hmoves : r.Moves r.step)
    (hend : r.step.stack = r.stack → r.step.rest = [])
    (hfinish : (Reading.content fuel r).finish = some tree) :
    ∃ n, Spine tree (e :: outer) n ∧ n.text = e.text.map String.ofList := by
  have hhere : r.finish = some tree → ∃ n, Spine tree (e :: outer) n ∧
      n.text = e.text.map String.ofList := fun h =>
    ⟨e.close, hstack ▸ Spine.of_finish hroot hstack h, rfl⟩
  cases fuel with
  | zero => exact hhere hfinish
  | succ fuel =>
    by_cases hrest : r.rest = []
    · rw [content_of_rest hrest] at hfinish
      exact hhere hfinish
    rw [content_step hrest (by simp [hstack])] at hfinish
    have hgrows := growsTo_content (root_step hroot (by simp [hstack])) hfinish
    generalize r.step = s at hmoves hend hfinish hgrows
    obtain ⟨size, line, text, stack, root⟩ := r
    obtain ⟨size', line', text', stack', root'⟩ := s
    obtain ⟨hclosed, hopen⟩ := hgrows
    dsimp only at hroot hstack hclosed hopen hend
    subst hstack
    cases (hmoves : Markup.Moves (e :: outer) root stack' root') with
    | keeps =>
      obtain rfl : text' = [] := hend rfl
      rw [content_of_rest rfl] at hfinish
      exact ⟨e.close, Spine.of_finish hroot rfl hfinish, rfl⟩
    | opens d =>
      obtain ⟨-, n, hspine⟩ := hopen (List.cons_ne_nil _ _)
      cases hspine with
      | inner parent _ htext _ => exact ⟨_, parent, htext⟩
    | adds m =>
      obtain ⟨-, p, hspine⟩ := hopen (List.cons_ne_nil _ _)
      obtain ⟨-, -, htext⟩ := hspine.becomes.of_addChild
      exact ⟨p, hspine.replace fun hbecomes => hbecomes.of_addChild.1, htext⟩
    | closes _ d outer =>
      obtain ⟨-, p, hspine⟩ := hopen (List.cons_ne_nil _ _)
      obtain ⟨-, hchild, htext⟩ := hspine.becomes.of_addChild
      exact ⟨e.close, .inner (hspine.replace fun hbecomes => hbecomes.of_addChild.1) hchild htext
        (.close e), rfl⟩
    | ends =>
      obtain rfl := Option.some.inj (hclosed rfl)
      exact ⟨e.close, .root (.close e), rfl⟩

/-- A change other than that of literal text leaves no stack as it was. -/
theorem stack_ne_of_apply {change : Change} {r b : Reading} (hstack : r.stack ≠ [])
    (hchange : change ≠ .keeps) (h : change.apply r = some b) : b.stack ≠ r.stack := by
  obtain ⟨size, line, text, stack, root⟩ := r
  obtain ⟨e, outer, rfl⟩ := List.exists_cons_of_ne_nil hstack
  have hadds : ∀ n : Node, e.addChild n ≠ e := by
    intro n hsame
    have hlength := congrArg (fun e => e.children.length) hsame
    simp [OpenElement.addChild] at hlength
  cases change with
  | opens name written closed =>
    rw [Change.apply] at h
    split at h
    · cases h
    · obtain rfl := Option.some.inj h
      split
      · exact fun hsame => hadds _ (List.cons.inj hsame).1
      · exact fun hsame => by simpa using congrArg List.length hsame
  | closes =>
    obtain rfl := Option.some.inj h
    cases outer with
    | nil => exact fun hsame => by cases hsame
    | cons d outer =>
      intro hsame
      simpa [Reading.place] using congrArg List.length hsame
  | remarks kind label =>
    obtain rfl := Option.some.inj h
    exact fun hsame => hadds _ (List.cons.inj hsame).1
  | keeps => exact absurd rfl hchange

/-- The text of an element is settled before a piece of markup that is no literal text, and at the end
of the document. -/
theorem exists_spine_of_standsBefore {e : OpenElement}
    (hfinish : (Reading.content fuel r).finish = some tree)
    (hrest : ∀ s ∈ rest.head?, s.WellFormed ∧ s.mark.isLiteral = false)
    (hstands : StandsBefore tags rest r) (hstack : r.stack = e :: outer) :
    ∃ n, Spine tree (e :: outer) n ∧ n.text = e.text.map String.ofList := by
  cases rest with
  | nil =>
    rw [content_of_rest hstands.rest] at hfinish
    exact ⟨e.close, hstack ▸ Spine.of_finish hstands.root hstack hfinish, rfl⟩
  | cons s rest =>
    obtain ⟨⟨hmark, hwithin, -⟩, hliteral⟩ := hrest s rfl
    have hne : r.stack ≠ [] := by simp [hstack]
    have hsplit := hstands.rest_cons
    obtain ⟨cs, hcs, hplain⟩ := not_literal_prefix hmark hwithin hliteral
      (s.after ++ rest.flatMap Segment.text)
    refine exists_spine_of_moves hstands.root hstack (moves_step hne (hsplit.trans hcs) hplain)
      (fun hsame => ?_) hfinish
    obtain ⟨-, hfollows⟩ := follows_step hmark hwithin hsplit hstands.size hne
    cases hchange : s.mark.change.apply r.bare with
    | none =>
      rw [hchange] at hfollows
      exact hfollows.2
    | some b =>
      rw [hchange] at hfollows
      have hbare : b.stack = r.bare.stack := by
        rw [← hfollows.1, Reading.bare, Reading.bare, hsame]
      refine absurd hbare (stack_ne_of_apply (by simp [Reading.bare, hstack]) ?_ hchange)
      cases hkind : s.mark with
      | literal text =>
        rw [hkind] at hliteral
        cases hliteral
      | doctype text =>
        rw [hkind] at hwithin
        cases hwithin
      | _ => exact fun h => by cases h

/-- The element of a start tag is in the tree. -/
theorem exists_spine_of_start {t : StartTag} (ht : t.WellFormed) {after : List Char}
    (hstands : StandsBefore tags (⟨.start t, after⟩ :: rest) r) (htags : tags ≠ [])
    (hdepth : ¬ Reading.depthLimit < tags.length) (hfuel : r.rest.length < fuel)
    (hfinish : (Reading.content fuel r).finish = some tree) :
    ∃ stack n, OpenedBy stack (t :: tags) ∧ Spine tree stack n := by
  have hne := hstands.opened.stack_ne_nil htags
  rw [← hstands.opened.length_eq] at hdepth
  have hsplit : r.rest = (Mark.start t).text ++ (after ++ rest.flatMap Segment.text) :=
    hstands.rest_cons
  obtain ⟨line, hstep⟩ := exists_step_start ht hsplit hstands.size hdepth
  have hopened := hstands.opened.openElement t line
  obtain ⟨k, rfl⟩ : ∃ k, fuel = k + 1 := ⟨fuel - 1, by omega⟩
  rw [content_step (by rw [hsplit]; exact List.cons_ne_nil _ _) hne] at hfinish
  have hgrows := growsTo_content (root_step hstands.root hne) hfinish
  rw [hstep] at hgrows
  cases hclosed : t.closed with
  | false =>
    rw [hclosed, if_neg Bool.false_ne_true] at hgrows
    obtain ⟨-, n, hspine⟩ := hgrows.stack (List.cons_ne_nil _ _)
    exact ⟨_, n, hopened, hspine⟩
  | true =>
    -- the element is closed already, and a child of the innermost open one
    rw [hclosed, if_pos rfl] at hgrows
    obtain ⟨size, place, text, stack, root⟩ := r
    obtain ⟨e, outer, rfl⟩ := List.exists_cons_of_ne_nil hne
    obtain ⟨-, p, hspine⟩ := hgrows.stack (List.cons_ne_nil _ _)
    obtain ⟨-, hchild, htext⟩ := hspine.becomes.of_addChild
    exact ⟨_, _, hopened, .inner (hspine.replace fun hbecomes => hbecomes.of_addChild.1) hchild htext
      (.close _)⟩

/-! ## Text -/

/-- A text that is read as it is: plain characters, no white space, and nothing of the mark that ends
literal text. -/
def IsVerbatim (w : List Char) : Prop :=
  ∀ c ∈ w, Reading.isPlain c = true ∧ isSpace c = false ∧ c ≠ ']'

theorem takePlain_verbatim {w tail : List Char} (hw : IsVerbatim w)
    (htail : tail = [] ∨ tail.head? = some '<') :
    Reading.takePlain (w ++ tail) = (w, tail, false) := by
  induction w with
  | nil =>
    cases tail with
    | nil => rfl
    | cons c tail =>
      obtain rfl : c = '<' := Option.some.inj (htail.resolve_left (List.cons_ne_nil _ _))
      rfl
  | cons c w ih =>
    obtain ⟨⟨hplain, -, hmark⟩, hrest⟩ := List.forall_mem_cons.mp hw
    have hprefix : ¬ [']', ']', '>'].isPrefixOf (c :: (w ++ tail)) = true := by
      rw [List.isPrefixOf_iff_prefix, List.cons_prefix_cons]
      exact fun h => hmark h.1.symm
    rw [List.cons_append, Reading.takePlain, if_neg hprefix, if_pos hplain, ih hrest]

/-- Verbatim text is added in one step. -/
theorem step_verbatim {w tail : List Char} (hw : IsVerbatim w) (hne : w ≠ [])
    (htail : tail = [] ∨ tail.head? = some '<') (hrest : r.rest = w ++ tail) :
    r.step = (r.goTo (lineFeeds w) tail).modify (·.addText w) := by
  obtain ⟨c, cs, rfl⟩ := List.exists_cons_of_ne_nil hne
  obtain ⟨hplain, hspace, -⟩ := hw c List.mem_cons_self
  have hsigns : c ≠ '<' ∧ c ≠ '&' := by
    constructor <;> · rintro rfl; revert hplain; decide
  have hstep : r.step = r.plainText := by
    rw [Reading.step, hrest]
    split <;> simp_all
  have hrun : ∀ e : OpenElement, e.addRun false (c :: cs) tail = e.addText (c :: cs) := fun e => by
    simp [OpenElement.addRun, hspace]
  rw [hstep, Reading.plainText, hrest, takePlain_verbatim hw htail]
  simp only [Bool.false_eq_true, if_false, hrun]
  cases tail with
  | nil => rfl
  | cons d tail =>
    obtain rfl : d = '<' := Option.some.inj (htail.resolve_left (List.cons_ne_nil _ _))
    rfl

/-- Verbatim literal text is added as it is. -/
theorem step_literal {w tail : List Char} (hm : (Mark.literal w).WellFormed) (hw : IsVerbatim w)
    (hrest : r.rest = (Mark.literal w).text ++ tail) :
    r.step = (r.goTo (lineFeeds w) tail).modify (·.addText w) := by
  have hsplit : splitAt? [']', ']', '>'] (w ++ ']' :: ']' :: '>' :: tail) = some (w, tail) :=
    @splitAt?_append [']', ']'] w '>' (by decide) hm tail
  have hlines : unifyLineEnds w = w := unifyLineEnds_eq_self fun hmem => by
    have hspace := (hw _ hmem).2.1
    cases hspace
  have hstep : r.step = r.literal (w ++ ']' :: ']' :: '>' :: tail) := by
    rw [Reading.step, hrest]
    simp [Mark.text]
  rw [hstep, Reading.literal, hsplit]
  dsimp only
  rw [hlines]

/-- The text before the first child of an element: plain text, or a section of literal text. What
follows is no further literal text. -/
inductive WritesText (w : List Char) : List Char → List Segment → Prop where
  | plain {rest : List Segment} (next : ∀ s ∈ rest.head?, s.mark.isLiteral = false) :
      WritesText w w rest
  | literal {rest : List Segment} (next : ∀ s ∈ rest.head?, s.mark.isLiteral = false) :
      WritesText w [] (⟨.literal w, []⟩ :: rest)

/-- The first text of the innermost element is its text, if no literal text follows. -/
theorem exists_spine_of_addText {e : OpenElement}
    {lines : Nat} (hfinish : (Reading.content fuel r).finish = some tree)
    (hstack : r.stack = e :: outer) (hopened : OpenedBy (e :: outer) tags) (htext : e.text = none)
    (hchildren : e.children = []) (hroot : r.root = none)
    (hnext : ∀ s ∈ rest.head?, s.WellFormed ∧ s.mark.isLiteral = false)
    (hsize : (rest.flatMap Segment.text).length ≤ r.size) (hmore : r.rest ≠ [])
    (hstep : r.step = (r.goTo lines (rest.flatMap Segment.text)).modify (·.addText w))
    (hfuel : fuel ≠ 0) :
    ∃ stack n, OpenedBy stack tags ∧ Spine tree stack n ∧ n.text = some (String.ofList w) := by
  obtain ⟨k, rfl⟩ := Nat.exists_eq_succ_of_ne_zero hfuel
  obtain ⟨size, line, text, stack, root⟩ := r
  dsimp only at hstack
  subst hstack
  rw [content_step hmore (List.cons_ne_nil _ _), hstep] at hfinish
  have hadded : (e.addText w).text.map String.ofList = some (String.ofList w) := by
    rw [OpenElement.addText, hchildren, List.isEmpty_nil, if_pos rfl, htext]
    rfl
  have hmoreText := OpenElement.MoreText.addText e w
  have hopened' : OpenedBy (e.addText w :: outer) tags :=
    hopened.replace hmoreText.tag hmoreText.attributes hmoreText.namespaces
  obtain ⟨n, hspine, hn⟩ := exists_spine_of_standsBefore hfinish hnext ⟨rfl, hsize, hopened', hroot⟩
    rfl
  exact ⟨_, n, hopened', hspine, hn.trans hadded⟩

/-- The text that follows a start tag is the text of its element. -/
theorem exists_spine_of_text {t : StartTag} (ht : t.WellFormed) (hopen : t.closed = false)
    {after w : List Char} (hrest : ∀ s ∈ rest, s.WellFormed)
    (hstands : StandsBefore tags (⟨.start t, after⟩ :: rest) r) (htags : tags ≠ [])
    (hdepth : ¬ Reading.depthLimit < tags.length) (hfuel : r.rest.length < fuel)
    (hfinish : (Reading.content fuel r).finish = some tree) (hw : IsVerbatim w) (hne : w ≠ [])
    (hwrites : WritesText w after rest) :
    ∃ stack n, OpenedBy stack (t :: tags) ∧ Spine tree stack n ∧
      n.text = some (String.ofList w) := by
  have hstack := hstands.opened.stack_ne_nil htags
  rw [← hstands.opened.length_eq] at hdepth
  have hsplit : r.rest = (Mark.start t).text ++ (after ++ rest.flatMap Segment.text) :=
    hstands.rest_cons
  obtain ⟨line, hstep⟩ := exists_step_start ht hsplit hstands.size hdepth
  rw [hopen, if_neg Bool.false_ne_true] at hstep
  have hopened := hstands.opened.openElement t line
  have hlength := congrArg List.length hsplit
  have hpos := List.length_pos_iff.mpr (text_ne_nil (.start t))
  have hsize := hstands.size
  obtain ⟨k, rfl⟩ : ∃ k, fuel = k + 1 := ⟨fuel - 1, by omega⟩
  rw [content_step (by rw [hsplit]; exact List.cons_ne_nil _ _) hstack, hstep] at hfinish
  cases hwrites with
  | plain next =>
    have hposText := List.length_pos_iff.mpr hne
    simp only [List.length_append] at hlength
    refine exists_spine_of_addText hfinish rfl hopened rfl rfl hstands.root
      (fun s hs => ⟨hrest s (List.mem_of_head? hs), next s hs⟩) (by dsimp only; omega) ?_
      (step_verbatim hw hne (head?_segments rest) rfl) (by omega)
    simp [hne]
  | literal next =>
    rename_i rest
    obtain ⟨hliteral, hrest⟩ := List.forall_mem_cons.mp hrest
    have htext : ([] ++ List.flatMap Segment.text (⟨.literal w, []⟩ :: rest)) =
        (Mark.literal w).text ++ rest.flatMap Segment.text := by
      simp [Segment.text]
    rw [htext] at hlength hfinish
    have hposText := List.length_pos_iff.mpr (text_ne_nil (.literal w))
    simp only [List.length_append] at hlength
    exact exists_spine_of_addText hfinish rfl hopened rfl rfl hstands.root
      (fun s hs => ⟨hrest s (List.mem_of_head? hs), next s hs⟩) (by dsimp only; omega)
      (List.cons_ne_nil _ _) (step_literal hliteral.1 hw rfl) (by omega)

end Stays

end DesignAudit.Markup
