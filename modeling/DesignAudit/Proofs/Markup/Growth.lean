import DesignAudit.Proofs.Markup.Below
import DesignAudit.Proofs.Markup.Structure

/-!
# What has been read stays

Reading goes on in steps, and no step takes back what is there. A step adds text to the innermost open
element (`moreText_step`), or it opens an element, adds a child or closes an element (`moves_step`).
So each open element becomes a node of the tree that is read in the end, with the tag, the attributes
and the children that it has (`growsTo_content`), and these nodes lie in one another as the open
elements do (`Spine.exists_sites`).
-/

namespace DesignAudit.Markup

open Text (unifyLineEnds)

/-! ## Text -/

/-- An open element with more text, be it before its first child or behind a child. -/
structure OpenElement.MoreText (e' e : OpenElement) : Prop where
  tag : e'.tag = e.tag
  attributes : e'.attributes = e.attributes
  namespaces : e'.namespaces = e.namespaces
  children : e'.children = e.children
  text : e.children ≠ [] → e'.text = e.text

namespace OpenElement.MoreText

theorem refl (e : OpenElement) : e.MoreText e := ⟨rfl, rfl, rfl, rfl, fun _ => rfl⟩

theorem trans {e'' e' e : OpenElement} (h' : e''.MoreText e') (h : e'.MoreText e) :
    e''.MoreText e where
  tag := h'.tag.trans h.tag
  attributes := h'.attributes.trans h.attributes
  namespaces := h'.namespaces.trans h.namespaces
  children := h'.children.trans h.children
  text hne := (h'.text (h.children ▸ hne)).trans (h.text hne)

theorem addText (e : OpenElement) (cs : List Char) : (e.addText cs).MoreText e := by
  rw [OpenElement.addText]
  split
  · rename_i hempty
    exact ⟨rfl, rfl, rfl, rfl, fun hne => absurd (List.isEmpty_iff.mp hempty) hne⟩
  · exact ⟨rfl, rfl, rfl, rfl, fun _ => rfl⟩

theorem addRun (e : OpenElement) (always : Bool) (run rest : List Char) :
    (e.addRun always run rest).MoreText e := by
  rw [OpenElement.addRun]
  split
  · exact refl e
  · split
    · split
      · exact refl e
      · have htext := addText e run
        dsimp only
        split
        · exact ⟨htext.tag, htext.attributes, htext.namespaces, htext.children, htext.text⟩
        · exact htext
    · exact addText e run

end OpenElement.MoreText

/-- A reading whose innermost open element has more text; all else is as it was. -/
def Reading.MoreText (s r : Reading) : Prop :=
  s.root = r.root ∧
    ((r.stack = [] ∧ s.stack = []) ∨
      ∃ e e' outer, r.stack = e :: outer ∧ s.stack = e' :: outer ∧ e'.MoreText e)

namespace Reading.MoreText

variable {r s t : Reading}

theorem of_stack (hroot : s.root = r.root) (hstack : s.stack = r.stack) : s.MoreText r := by
  refine ⟨hroot, ?_⟩
  rw [hstack]
  cases r.stack with
  | nil => exact .inl ⟨rfl, rfl⟩
  | cons e outer => exact .inr ⟨e, e, outer, rfl, rfl, .refl e⟩

theorem refl (r : Reading) : r.MoreText r := of_stack rfl rfl

theorem trans (h' : t.MoreText s) (h : s.MoreText r) : t.MoreText r := by
  obtain ⟨hroot', hstack'⟩ := h'
  obtain ⟨hroot, ⟨hnil, hsnil⟩ | ⟨e, e', outer, hr, hs, hmore⟩⟩ := h
  · refine ⟨hroot'.trans hroot, ?_⟩
    obtain ⟨-, htnil⟩ | ⟨d, d', outer, hs, -⟩ := hstack'
    · exact .inl ⟨hnil, htnil⟩
    · rw [hsnil] at hs
      cases hs
  · refine ⟨hroot'.trans hroot, .inr ?_⟩
    obtain ⟨hsnil, -⟩ | ⟨d, d', outer', hs', ht, hmore'⟩ := hstack'
    · rw [hs] at hsnil
      cases hsnil
    · rw [hs] at hs'
      obtain ⟨rfl, rfl⟩ := List.cons.inj hs'
      exact ⟨e, d', outer, hr, ht, hmore'.trans hmore⟩

theorem modify {f : OpenElement → OpenElement} (hf : ∀ e, (f e).MoreText e) (r : Reading) :
    (r.modify f).MoreText r := by
  obtain ⟨size, line, rest, stack, root⟩ := r
  cases stack with
  | nil => exact ⟨rfl, .inl ⟨rfl, rfl⟩⟩
  | cons e outer => exact ⟨rfl, .inr ⟨e, f e, outer, rfl, rfl, hf e⟩⟩

end Reading.MoreText

theorem moreText_anyText (r : Reading) : r.anyText.MoreText r := by
  rw [Reading.anyText]
  exact (Reading.MoreText.modify (fun e => .addRun e _ _ _) _).trans (.of_stack rfl rfl)

theorem moreText_plainText (r : Reading) : r.plainText.MoreText r := by
  rw [Reading.plainText]
  generalize Reading.takePlain r.rest = taken
  obtain ⟨run, rest, mark⟩ := taken
  dsimp only
  have hrun : ((r.goTo (lineFeeds run) rest).modify (·.addRun false run rest)).MoreText r :=
    (Reading.MoreText.modify (fun e => .addRun e _ _ _) _).trans (.of_stack rfl rfl)
  split
  · exact .of_stack rfl rfl
  · split
    · exact .trans (.of_stack rfl rfl) hrun
    · split
      · exact hrun
      · exact (moreText_anyText _).trans hrun
    · exact hrun

/-- A step at a character that opens no tag adds text at most. -/
theorem moreText_step {r : Reading} {c : Char} {cs : List Char} (hrest : r.rest = c :: cs)
    (hopen : c ≠ '<') : r.step.MoreText r := by
  by_cases hamp : c = '&'
  · have hstep : r.step = Reading.modify { r with rest := (reference cs).2 } fun e =>
        if (reference cs).1.isEmpty then e else e.addText (reference cs).1 := by
      rw [Reading.step, hrest, hamp]
      rfl
    rw [hstep]
    refine (Reading.MoreText.modify (fun e => ?_) _).trans (.of_stack rfl rfl)
    split
    · exact .refl e
    · exact .addText e _
  · have hstep : r.step = r.plainText := by
      rw [Reading.step, hrest]
      split <;> simp_all
    rw [hstep]
    exact moreText_plainText r

theorem moreText_literal (r : Reading) (body : List Char) : (r.literal body).MoreText r := by
  rw [Reading.literal]
  split
  · exact .of_stack rfl rfl
  · exact (Reading.MoreText.modify (fun e => .addText e _) _).trans (.of_stack rfl rfl)

/-! ## Markup -/

/-- What a piece of markup can do to the open elements, innermost first, and to the root. -/
inductive Moves : List OpenElement → Option Node → List OpenElement → Option Node → Prop where
  | keeps (stack : List OpenElement) (root : Option Node) : Moves stack root stack root
  | opens (e : OpenElement) (stack : List OpenElement) (root : Option Node) :
      Moves stack root (e :: stack) root
  | adds (n : Node) (e : OpenElement) (outer : List OpenElement) (root : Option Node) :
      Moves (e :: outer) root (e.addChild n :: outer) root
  | closes (e d : OpenElement) (outer : List OpenElement) (root : Option Node) :
      Moves (e :: d :: outer) root (d.addChild e.close :: outer) root
  | ends (e : OpenElement) (root : Option Node) : Moves [e] root [] (some e.close)

/-- What a reading does to the open elements of another one. -/
def Reading.Moves (r s : Reading) : Prop := Markup.Moves r.stack r.root s.stack s.root

section Moves

variable {r : Reading}

theorem Reading.Moves.of_eq {r' s : Reading} (h : r'.Moves s) (hstack : r'.stack = r.stack)
    (hroot : r'.root = r.root) : r.Moves s := by
  rw [Reading.Moves, ← hstack, ← hroot]
  exact h

variable (hstack : r.stack ≠ [])

include hstack

theorem moves_place (n : Node) : r.Moves (r.place n) := by
  obtain ⟨size, line, rest, stack, root⟩ := r
  cases stack with
  | nil => exact absurd rfl hstack
  | cons e outer => exact .adds n e outer root

theorem moves_startTag : r.Moves r.startTag := by
  rw [Reading.startTag]
  dsimp only
  split
  · exact .keeps _ _
  · split
    · exact .keeps _ _
    · split
      · exact (moves_place (by exact hstack) _).of_eq rfl rfl
      · exact .opens _ _ _
      · exact (moves_place (by exact hstack) _).of_eq rfl rfl

theorem moves_endTag : r.Moves r.endTag := by
  obtain ⟨size, line, rest, stack, root⟩ := r
  rw [Reading.endTag]
  rcases stack with _ | ⟨e, _ | ⟨d, outer⟩⟩
  · exact absurd rfl hstack
  · exact .ends e root
  · exact .closes e d outer root

theorem moves_remark (kind : Kind) (label : String) (stop body : List Char) :
    r.Moves (r.remark kind label stop body) := by
  rw [Reading.remark]
  split
  · exact .keeps _ _
  · dsimp only
    split
    · rename_i hnil
      exact absurd hnil hstack
    · exact (moves_place (by exact hstack) _).of_eq rfl rfl

theorem moves_instruction (body : List Char) : r.Moves (r.instruction body) := by
  rw [Reading.instruction]
  dsimp only
  split
  · exact .keeps _ _
  · exact (moves_remark (by exact hstack) _ _ _ _).of_eq rfl rfl

/-- A step at a mark of a tag moves the open elements, unless literal text begins there. -/
theorem moves_step {cs : List Char} (hrest : r.rest = '<' :: cs)
    (hliteral : ¬ "![CDATA[".toList <+: cs) : r.Moves r.step := by
  rw [← List.isPrefixOf_iff_prefix] at hliteral
  rw [Reading.step, hrest]
  split
  · rename_i h
    cases h
  · exact moves_instruction hstack _
  · exact (moves_endTag (by exact hstack)).of_eq rfl rfl
  · rename_i rest _ _ h
    obtain rfl : cs = rest := (List.cons.inj h).2
    rw [if_neg hliteral]
    split
    · exact moves_remark hstack _ _ _ _
    · exact (moves_startTag (by exact hstack)).of_eq rfl rfl
  · rename_i h
    exact absurd (List.cons.inj h).1 (by decide)
  · rename_i h _
    exact absurd rfl (h cs)

end Moves

/-- Every step moves the open elements or adds text. -/
theorem moves_or_moreText_step {r : Reading} (hstack : r.stack ≠ []) :
    r.Moves r.step ∨ r.step.MoreText r := by
  cases hrest : r.rest with
  | nil =>
    have hstep : r.step = r := by rw [Reading.step, hrest]
    rw [hstep]
    exact .inr (.refl r)
  | cons c cs =>
    by_cases hopen : c = '<'
    · subst hopen
      by_cases hliteral : "![CDATA[".toList <+: cs
      · obtain ⟨body, rfl⟩ := hliteral
        have hstep : r.step = r.literal body := by
          rw [Reading.step, hrest]
          simp
        exact .inr (hstep ▸ moreText_literal r body)
      · exact .inl (moves_step hstack hrest hliteral)
    · exact .inr (moreText_step hrest hopen)

/-! ## What open elements become -/

/-- An open element has become a node: the node has its tag, its attributes and its children, maybe
more children, and its text if there was a child already. -/
structure OpenElement.Becomes (e : OpenElement) (n : Node) : Prop where
  tag : n.tag = e.tag
  attributes : n.attributes = e.attributes
  children : e.children.reverse <+: n.children
  text : e.children ≠ [] → n.text = e.text.map String.ofList

namespace OpenElement.Becomes

variable {e e' : OpenElement} {n m : Node}

theorem close (e : OpenElement) : e.Becomes e.close := ⟨rfl, rfl, List.prefix_rfl, fun _ => rfl⟩

theorem of_moreText (h : e'.Becomes n) (hmore : e'.MoreText e) : e.Becomes n where
  tag := h.tag.trans hmore.tag
  attributes := h.attributes.trans hmore.attributes
  children := hmore.children ▸ h.children
  text hne := by rw [h.text (hmore.children.symm ▸ hne), hmore.text hne]

/-- The latest child is one of the node, and nothing is added to the text any more. -/
theorem of_addChild (h : (e.addChild m).Becomes n) :
    e.Becomes n ∧ e.children.reverse ++ [m] <+: n.children ∧ n.text = e.text.map String.ofList := by
  have hchildren : e.children.reverse ++ [m] <+: n.children := by
    have hreverse : (e.addChild m).children.reverse = e.children.reverse ++ [m] :=
      List.reverse_cons
    exact hreverse ▸ h.children
  have htext : n.text = e.text.map String.ofList := h.text (List.cons_ne_nil _ _)
  exact ⟨⟨h.tag, h.attributes, (List.prefix_append _ _).trans hchildren, fun _ => htext⟩, hchildren,
    htext⟩

end OpenElement.Becomes

/-- The open elements, innermost first, have become nodes of a tree, each of them a child of the next;
the innermost one has become the given node. -/
inductive Spine (tree : Node) : List OpenElement → Node → Prop where
  | root {e : OpenElement} (becomes : e.Becomes tree) : Spine tree [e] tree
  | inner {e d : OpenElement} {outer : List OpenElement} {n p : Node}
      (parent : Spine tree (d :: outer) p) (child : d.children.reverse ++ [n] <+: p.children)
      (text : p.text = d.text.map String.ofList) (becomes : e.Becomes n) :
      Spine tree (e :: d :: outer) n

namespace Spine

variable {tree n : Node} {e e' : OpenElement} {outer : List OpenElement}

theorem becomes (h : Spine tree (e :: outer) n) : e.Becomes n := by
  cases h with
  | root becomes => exact becomes
  | inner _ _ _ becomes => exact becomes

/-- The innermost element can be replaced by another one that has become the same node. -/
theorem replace (h : Spine tree (e' :: outer) n) (he : e'.Becomes n → e.Becomes n) :
    Spine tree (e :: outer) n := by
  cases h with
  | root becomes => exact .root (he becomes)
  | inner parent child text becomes => exact .inner parent child text (he becomes)

/-- Closing what is open makes a tree. -/
theorem of_foldl {m : Node} (he : e.Becomes m)
    (h : outer.foldl (fun inner d =>
      some (match inner with | some n => (d.addChild n).close | none => d.close)) (some m) =
        some tree) :
    Spine tree (e :: outer) m := by
  induction outer generalizing e m with
  | nil =>
    obtain rfl := Option.some.inj h
    exact .root he
  | cons d outer ih =>
    have hparent := OpenElement.Becomes.close (d.addChild m)
    obtain ⟨hbecomes, hchild, htext⟩ := hparent.of_addChild
    exact .inner (ih hbecomes h) hchild htext he

theorem of_finish {r : Reading} (hroot : r.root = none) (hstack : r.stack = e :: outer)
    (h : r.finish = some tree) : Spine tree r.stack e.close := by
  rw [Reading.finish, hroot] at h
  simp only [hstack, List.foldl_cons] at h
  rw [hstack]
  exact of_foldl (.close e) h

end Spine

/-- The nodes that open elements have become, each of them below the next, and the root last. -/
theorem Spine.exists_sites {tree n : Node} {stack : List OpenElement} (h : Spine tree stack n) :
    ∃ s sites, s.node = n ∧ List.Forall₂ (fun e t => e.Becomes t.node) stack (s :: sites) ∧
      (s :: sites).Pairwise (fun inner outer => inner ∈ outer.below) ∧
      (s :: sites).getLast? = some (Site.root tree) := by
  induction h with
  | root becomes =>
    exact ⟨Site.root tree, [], rfl, .cons becomes .nil, List.pairwise_singleton _ _, rfl⟩
  | inner parent child text becomes ih =>
    rename_i e d outer m p
    obtain ⟨s, sites, rfl, hbecomes, hbelow, hlast⟩ := ih
    have hmem : m ∈ s.node.children := child.subset (by simp)
    obtain ⟨c, hc, hnode⟩ := Site.exists_mem_children hmem
    have hc := Site.mem_below_of_mem_children hc
    refine ⟨c, s :: sites, hnode, .cons (hnode ▸ becomes) hbecomes, ?_, hlast⟩
    refine List.pairwise_cons.mpr ⟨fun t ht => ?_, hbelow⟩
    rcases List.mem_cons.mp ht with rfl | ht
    · exact hc
    · exact Site.below_trans ((List.pairwise_cons.mp hbelow).1 t ht) hc

/-! ## Steps and whole readings -/

/-- The tree of a reading has the open elements of the reading in it. -/
structure GrowsTo (r : Reading) (tree : Node) : Prop where
  root : r.stack = [] → r.root = some tree
  stack : r.stack ≠ [] → r.root = none ∧ ∃ n, Spine tree r.stack n

/-- What a move makes of the open elements has them in it. -/
theorem GrowsTo.of_moves {r s : Reading} {tree : Node} (hmoves : r.Moves s) (h : GrowsTo s tree)
    (hroot : r.root = none) (hstack : r.stack ≠ []) : GrowsTo r tree := by
  refine ⟨fun hnil => absurd hnil hstack, fun _ => ⟨hroot, ?_⟩⟩
  obtain ⟨size, line, rest, stack, root⟩ := r
  obtain ⟨size', line', rest', stack', root'⟩ := s
  obtain ⟨hclosed, hopen⟩ := h
  dsimp only at hroot hstack hclosed hopen ⊢
  cases (hmoves : Markup.Moves stack root stack' root') with
  | keeps => exact (hopen hstack).2
  | opens e =>
    obtain ⟨-, n, hspine⟩ := hopen (List.cons_ne_nil _ _)
    cases hspine with
    | root _ => exact absurd rfl hstack
    | inner parent _ _ _ => exact ⟨_, parent⟩
  | adds n e outer =>
    obtain ⟨-, p, hspine⟩ := hopen (List.cons_ne_nil _ _)
    exact ⟨p, hspine.replace fun hbecomes => hbecomes.of_addChild.1⟩
  | closes e d outer =>
    obtain ⟨-, p, hspine⟩ := hopen (List.cons_ne_nil _ _)
    obtain ⟨-, hchild, htext⟩ := hspine.becomes.of_addChild
    exact ⟨e.close, .inner (hspine.replace fun hbecomes => hbecomes.of_addChild.1) hchild htext
      (.close e)⟩
  | ends e =>
    obtain rfl := Option.some.inj (hclosed rfl)
    exact ⟨e.close, .root (.close e)⟩

theorem GrowsTo.of_moreText {r s : Reading} {tree : Node} (hmore : s.MoreText r)
    (h : GrowsTo s tree) (hstack : r.stack ≠ []) : GrowsTo r tree := by
  obtain ⟨hroot, ⟨hnil, -⟩ | ⟨e, e', outer, hr, hs, he⟩⟩ := hmore
  · exact absurd hnil hstack
  · obtain ⟨hnone, n, hspine⟩ := h.stack (by simp [hs])
    refine ⟨fun hnil => absurd hnil hstack, fun _ => ⟨hroot ▸ hnone, n, ?_⟩⟩
    rw [hs] at hspine
    rw [hr]
    exact hspine.replace fun hbecomes => hbecomes.of_moreText he

theorem GrowsTo.of_finish {r : Reading} {tree : Node} (hroot : r.stack ≠ [] → r.root = none)
    (h : r.finish = some tree) : GrowsTo r tree := by
  cases hstack : r.stack with
  | nil =>
    refine ⟨fun _ => ?_, fun hne => absurd hstack hne⟩
    rw [Reading.finish, hstack] at h
    cases hr : r.root with
    | none =>
      rw [hr] at h
      cases h
    | some n =>
      rw [hr] at h
      exact h
  | cons e outer =>
    have hnone := hroot (by simp [hstack])
    exact ⟨fun hnil => by simp [hstack] at hnil,
      fun _ => ⟨hnone, e.close, Spine.of_finish hnone hstack h⟩⟩

/-- There is a root as soon as nothing is open any more, and not before. -/
theorem root_step {r : Reading} (hroot : r.root = none) (hstack : r.stack ≠ []) :
    r.step.stack ≠ [] → r.step.root = none := by
  intro hne
  rcases moves_or_moreText_step hstack with hmoves | hmore
  · generalize hs : r.step = s at hmoves hne
    obtain ⟨size, line, rest, stack, root⟩ := r
    obtain ⟨size', line', rest', stack', root'⟩ := s
    cases (hmoves : Markup.Moves stack root stack' root') with
    | keeps => exact hroot
    | opens e => exact hroot
    | adds n e outer => exact hroot
    | closes e d outer => exact hroot
    | ends e => exact absurd rfl hne
  · exact hmore.1.trans hroot

/-- The tree that is read in the end has in it what is open at any time before. -/
theorem growsTo_content {fuel : Nat} {r : Reading} {tree : Node}
    (hroot : r.stack ≠ [] → r.root = none) (h : (Reading.content fuel r).finish = some tree) :
    GrowsTo r tree := by
  induction fuel generalizing r with
  | zero => exact .of_finish hroot h
  | succ fuel ih =>
    rw [Reading.content] at h
    split at h
    · exact .of_finish hroot h
    · rename_i hgoes
      have hstack : r.stack ≠ [] := by
        rintro hnil
        simp [hnil] at hgoes
      -- what is open after the step is in the tree, and is carried back over the step
      have hlater := ih (root_step (hroot hstack) hstack) h
      rcases moves_or_moreText_step hstack with hmoves | hmore
      · exact hlater.of_moves hmoves (hroot hstack) hstack
      · exact hlater.of_moreText hmore hstack

end DesignAudit.Markup
