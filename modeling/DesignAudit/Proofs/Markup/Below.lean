import DesignAudit.Markup.Node
import Mathlib.Data.List.Nodup

/-!
# What lies below a node

`Site.below` lists everything below a node in document order. `Site.Encloses` says the same by steps
from a node to one of its children, and `mem_below_iff` joins the two, so that facts about the list
are proved by induction on the steps: being below is transitive, and whatever lies below a node has
that node, and all that is around it, around itself. In the list no node comes before one that it
lies below (`below_pairwise`).
-/

namespace DesignAudit.Markup

namespace Site

/-- A node encloses its children and what these enclose. -/
inductive Encloses : Site → Site → Prop where
  | child {s c : Site} : c ∈ s.children → Encloses s c
  | step {s c t : Site} : c ∈ s.children → Encloses c t → Encloses s t

theorem below_eq (s : Site) : s.below = sitesIn (s.node :: s.above) s.address 0 s.node.children :=
  rfl

end Site

/-- A node and what is below it, as a site with the list of what lies below. -/
theorem sitesOf_eq (above : List Node) (address : List Nat) (n : Node) :
    sitesOf above address n = ⟨n, above, address⟩ :: Site.below ⟨n, above, address⟩ := by
  cases n
  rfl

/-- The sites of a list of nodes, those of one node after those of the other. -/
theorem sitesIn_eq_flatMap (above : List Node) (address : List Nat) (ns : List Node) (i : Nat) :
    sitesIn above address i ns =
      (ns.zipIdx i).flatMap fun (n, k) => sitesOf above (k :: address) n := by
  induction ns generalizing i with
  | nil => rfl
  | cons n rest ih =>
    rw [sitesIn, List.zipIdx_cons, List.flatMap_cons, ih]

namespace Site

/-- What lies below a node: each child, followed by what lies below the child. -/
theorem below_eq_flatMap (s : Site) : s.below = s.children.flatMap fun c => c :: c.below := by
  rw [below_eq, sitesIn_eq_flatMap, children, List.flatMap_map]
  refine List.flatMap_congr ?_
  rintro ⟨n, k⟩ -
  exact sitesOf_eq _ _ n

variable {c s t u : Site}

theorem mem_below_iff_children :
    t ∈ s.below ↔ ∃ c ∈ s.children, t = c ∨ t ∈ c.below := by
  rw [below_eq_flatMap]
  simp only [List.mem_flatMap, List.mem_cons]

theorem node_mem_of_mem_children (h : c ∈ s.children) :
    c.node ∈ s.node.children := by
  rw [children, List.mem_map] at h
  obtain ⟨⟨n, i⟩, hmem, rfl⟩ := h
  exact (List.mem_zipIdx' hmem).2 ▸ List.getElem_mem _

theorem exists_mem_children {n : Node} (h : n ∈ s.node.children) :
    ∃ c ∈ s.children, c.node = n := by
  have hnodes : s.children.map Site.node = s.node.children := by
    rw [children, List.map_map]
    exact List.zipIdx_map_fst 0 s.node.children
  rw [← hnodes] at h
  exact List.mem_map.mp h

theorem above_of_mem_children (h : c ∈ s.children) :
    c.above = s.node :: s.above := by
  rw [children, List.mem_map] at h
  obtain ⟨⟨n, i⟩, -, rfl⟩ := h
  rfl

/-- A child is smaller than its parent. -/
theorem sizeOf_lt_of_mem_children (h : c ∈ s.children) :
    sizeOf c.node < sizeOf s.node := by
  have hmem := node_mem_of_mem_children h
  obtain ⟨n, above, address⟩ := s
  cases n with
  | mk kind tag attributes text line children =>
    have hlt := List.sizeOf_lt_of_mem hmem
    simp only [Node.children] at hlt
    simp only [Node.mk.sizeOf_spec]
    omega

/-- What holds of a site as soon as it holds of its children holds of all sites. -/
theorem children_induction {motive : Site → Prop}
    (step : ∀ s : Site, (∀ c ∈ s.children, motive c) → motive s) (s : Site) : motive s := by
  induction hn : sizeOf s.node using Nat.strongRecOn generalizing s with
  | ind size ih => exact step s fun c hc => ih _ (hn ▸ sizeOf_lt_of_mem_children hc) c rfl

/-- The list of what lies below a node holds exactly what the node encloses. -/
theorem mem_below_iff : t ∈ s.below ↔ Encloses s t := by
  constructor
  · intro h
    induction s using children_induction with
    | step s ih =>
      obtain ⟨c, hc, rfl | ht⟩ := mem_below_iff_children.mp h
      · exact .child hc
      · exact .step hc (ih c hc ht)
  · intro h
    induction h with
    | child hc => exact mem_below_iff_children.mpr ⟨_, hc, .inl rfl⟩
    | step hc _ ih => exact mem_below_iff_children.mpr ⟨_, hc, .inr ih⟩

theorem Encloses.trans (hst : Encloses s t) (htu : Encloses t u) :
    Encloses s u := by
  induction hst with
  | child hc => exact .step hc htu
  | step hc _ ih => exact .step hc (ih htu)

theorem mem_below_of_mem_children (h : c ∈ s.children) : c ∈ s.below :=
  mem_below_iff.mpr (.child h)

/-- What lies below a node that lies below another lies below that one too. -/
theorem below_trans (hst : t ∈ s.below) (htu : u ∈ t.below) : u ∈ s.below :=
  mem_below_iff.mpr ((mem_below_iff.mp hst).trans (mem_below_iff.mp htu))

/-- Around a node that lies below another stand the nodes between the two, then the outer node and
what is around it; each node between them encloses the inner one. -/
theorem Encloses.above (h : Encloses s t) :
    ∃ between, t.above = between ++ s.node :: s.above ∧
      ∀ n ∈ between, ∃ g, g.node = n ∧ Encloses s g ∧ Encloses g t := by
  induction h with
  | child hc => exact ⟨[], above_of_mem_children hc, fun n hn => absurd hn List.not_mem_nil⟩
  | @step s c t hc hct ih =>
    obtain ⟨between, habove, hbetween⟩ := ih
    refine ⟨between ++ [c.node], ?_, fun n hn => ?_⟩
    · rw [habove, above_of_mem_children hc, List.append_assoc, List.singleton_append]
    · rcases List.mem_append.mp hn with hn | hn
      · obtain ⟨g, hg, hcg, hgt⟩ := hbetween n hn
        exact ⟨g, hg, .step hc hcg, hgt⟩
      · exact ⟨c, (List.mem_singleton.mp hn).symm, .child hc, hct⟩

theorem eq_of_mem_children {p q s : Site} (hp : s ∈ p.children) (hq : s ∈ q.children) : p = q := by
  obtain ⟨⟨n, i⟩, -, rfl⟩ := List.mem_map.mp hp
  obtain ⟨⟨m, j⟩, -, heq⟩ := List.mem_map.mp hq
  obtain ⟨-, habove, haddress⟩ := Site.mk.inj heq
  obtain ⟨hnode, habove⟩ := List.cons.inj habove
  obtain ⟨-, haddress⟩ := List.cons.inj haddress
  cases p
  cases q
  simp_all

/-- What encloses a site is its parent or encloses that. -/
theorem eq_or_mem_below_of_mem_children {g p s : Site} (hp : s ∈ p.children) (hg : s ∈ g.below) :
    g = p ∨ p ∈ g.below := by
  induction mem_below_iff.mp hg with
  | child hc => exact .inl (eq_of_mem_children hc hp)
  | @step g c s hc hcs ih =>
    refine .inr ?_
    rcases ih hp (mem_below_iff.mpr hcs) with rfl | h
    · exact mem_below_of_mem_children hc
    · exact below_trans (mem_below_of_mem_children hc) h

theorem exists_parent {g s : Site} (h : s ∈ g.below) :
    ∃ p, s ∈ p.children ∧ (p = g ∨ p ∈ g.below) := by
  induction mem_below_iff.mp h with
  | child hc => exact ⟨_, hc, .inl rfl⟩
  | @step g c s hc hcs ih =>
    obtain ⟨p, hp, hpc⟩ := ih (mem_below_iff.mpr hcs)
    refine ⟨p, hp, .inr ?_⟩
    rcases hpc with rfl | hpc
    · exact mem_below_of_mem_children hc
    · exact below_trans (mem_below_of_mem_children hc) hpc

/-- Each element around a node below the root of a document is that of a place in the document. -/
theorem exists_mem_of_above {root : Site} (hroot : root.above = []) {inner outer : List Node}
    {n : Node} (hs : s ∈ root.below) (habove : s.above = inner ++ n :: outer) :
    ∃ t ∈ root :: root.below, t.node = n ∧ t.above = outer := by
  induction inner generalizing s with
  | nil =>
    obtain ⟨p, hsp, hp⟩ := exists_parent hs
    rw [above_of_mem_children hsp, List.nil_append] at habove
    obtain ⟨hnode, houter⟩ := List.cons.inj habove
    exact ⟨p, List.mem_cons.mpr hp, hnode, houter⟩
  | cons m inner ih =>
    obtain ⟨p, hsp, hp⟩ := exists_parent hs
    rw [above_of_mem_children hsp, List.cons_append] at habove
    have hinner := (List.cons.inj habove).2
    rcases hp with rfl | hp
    · rw [hroot] at hinner
      exact absurd hinner (by simp)
    · exact ih hp hinner

theorem below_eq_nil_of_children (h : s.node.children = []) : s.below = [] := by
  rw [below_eq, h]
  rfl

/-! ## Document order -/

theorem sizeOf_lt_of_mem_below (h : t ∈ s.below) : sizeOf t.node < sizeOf s.node := by
  induction mem_below_iff.mp h with
  | child hc => exact sizeOf_lt_of_mem_children hc
  | step hc hct ih => exact Nat.lt_trans (ih (mem_below_iff.mpr hct)) (sizeOf_lt_of_mem_children hc)

theorem address_of_mem_below (h : t ∈ s.below) : s.address <:+ t.address := by
  induction mem_below_iff.mp h with
  | @child s c hc =>
    obtain ⟨⟨n, i⟩, -, rfl⟩ := List.mem_map.mp hc
    exact List.suffix_cons i s.address
  | @step s c t hc hct ih =>
    obtain ⟨⟨n, i⟩, -, rfl⟩ := List.mem_map.mp hc
    exact (List.suffix_cons i s.address).trans (ih (mem_below_iff.mpr hct))

/-- The children of a node have different addresses of the same length. -/
theorem children_pairwise (s : Site) :
    s.children.Pairwise fun a b => a.address.length = b.address.length ∧ a.address ≠ b.address := by
  have hmap : s.children.map Site.address =
      (List.range s.node.children.length).map (· :: s.address) := by
    rw [children, List.map_map, List.range_eq_range', ← List.zipIdx_map_snd 0, List.map_map]
    rfl
  have hnodup : (s.children.map Site.address).Nodup :=
    hmap ▸ List.nodup_range.map fun a b h => (List.cons.inj h).1
  have hlength : ∀ c ∈ s.children, c.address.length = s.address.length + 1 := by
    intro c hc
    obtain ⟨⟨n, i⟩, -, rfl⟩ := List.mem_map.mp hc
    rfl
  refine (List.pairwise_map.mp hnodup).imp_of_mem fun ha hb hne => ⟨?_, hne⟩
  rw [hlength _ ha, hlength _ hb]

theorem length_address_lt_of_mem_below (h : t ∈ s.below) :
    s.address.length < t.address.length := by
  induction mem_below_iff.mp h with
  | @child s c hc =>
    obtain ⟨⟨n, i⟩, -, rfl⟩ := List.mem_map.mp hc
    exact Nat.lt_succ_self _
  | @step s c t hc hct ih =>
    obtain ⟨⟨n, i⟩, -, rfl⟩ := List.mem_map.mp hc
    exact Nat.lt_of_succ_lt (ih (mem_below_iff.mpr hct))

/-- No address ends in those of two different children: what lies below them lies apart. -/
theorem not_suffix_of_siblings {c d x y : Site} {address : List Nat}
    (hcd : c.address.length = d.address.length ∧ c.address ≠ d.address) (hx : x ∈ c :: c.below)
    (hy : y ∈ d :: d.below) (hxa : x.address <:+ address) : ¬ y.address <:+ address := by
  intro hya
  have hends : ∀ {p z : Site}, z ∈ p :: p.below → p.address <:+ z.address := by
    intro p z hz
    rcases List.mem_cons.mp hz with rfl | hz
    · exact List.suffix_rfl
    · exact address_of_mem_below hz
  have hsuffix := List.suffix_of_suffix_length_le ((hends hx).trans hxa) ((hends hy).trans hya)
    (Nat.le_of_eq hcd.1)
  exact hcd.2 (hsuffix.eq_of_length hcd.1)

/-- In document order no node comes before one that it lies below. -/
theorem below_pairwise (s : Site) : s.below.Pairwise fun a b => a ∉ b.below := by
  induction s using children_induction with
  | step s ih =>
    rw [below_eq_flatMap, List.pairwise_flatMap]
    refine ⟨fun c hc => List.pairwise_cons.mpr ⟨fun t ht hct => ?_, ih c hc⟩,
      (children_pairwise s).imp fun hcd x hx y hy hxy => ?_⟩
    · exact Nat.lt_asymm (sizeOf_lt_of_mem_below ht) (sizeOf_lt_of_mem_below hct)
    · exact not_suffix_of_siblings hcd hx hy List.suffix_rfl (address_of_mem_below hxy)

/-- The nodes below another one have different addresses. -/
theorem nodup_address_below (s : Site) : (s.below.map Site.address).Nodup := by
  rw [List.Nodup, List.pairwise_map]
  induction s using children_induction with
  | step s ih =>
    rw [below_eq_flatMap, List.pairwise_flatMap]
    refine ⟨fun c hc => List.pairwise_cons.mpr ⟨fun t ht heq => ?_, ih c hc⟩,
      (children_pairwise s).imp fun hcd x hx y hy heq => ?_⟩
    · exact Nat.lt_irrefl _ (heq ▸ length_address_lt_of_mem_below ht)
    · exact not_suffix_of_siblings hcd hx hy List.suffix_rfl (heq ▸ List.suffix_rfl)

/-! ## Searches -/

@[simp]
theorem mem_all {name : String} : t ∈ s.all name ↔ t ∈ s.below ∧ t.tag = name := by
  rw [all, List.mem_filter, beq_iff_eq]

@[simp]
theorem holds_iff {name : String} :
    s.holds name = true ↔ ∃ t ∈ s.below, t.tag = name := by
  rw [holds, List.any_eq_true]
  simp only [beq_iff_eq]

theorem mem_childrenNamed {name : String} :
    t ∈ s.childrenNamed name ↔ t ∈ s.children ∧ t.tag = name := by
  rw [childrenNamed, List.mem_filter, beq_iff_eq]

/-- A search below a place that was found finds nothing that a search from further out misses. -/
theorem mem_all_trans {outer inner : String} (hst : t ∈ s.all outer)
    (htu : u ∈ t.all inner) : u ∈ s.all inner := by
  rw [mem_all] at hst htu ⊢
  exact ⟨below_trans hst.1 htu.1, htu.2⟩

/-- What is reached by going down through names has the last of the names and lies below. -/
theorem mem_all_of_mem_down (outer : List String) {inner : String}
    (h : t ∈ s.down (outer ++ [inner])) : t ∈ s.all inner := by
  induction outer generalizing s with
  | nil =>
    obtain ⟨c, hc, h⟩ := List.mem_flatMap.mp h
    obtain rfl := List.mem_singleton.mp h
    obtain ⟨hchild, htag⟩ := mem_childrenNamed.mp hc
    exact mem_all.mpr ⟨mem_below_of_mem_children hchild, htag⟩
  | cons name names ih =>
    obtain ⟨c, hc, h⟩ := List.mem_flatMap.mp h
    obtain ⟨hchild, htag⟩ := mem_childrenNamed.mp hc
    exact mem_all_trans (mem_all.mpr ⟨mem_below_of_mem_children hchild, htag⟩) (ih h)

/-- An element is found below elements of another name exactly if it lies below one of these. -/
theorem mem_allBelow_iff {outer inner : String} :
    t ∈ s.allBelow outer inner ↔ ∃ g ∈ s.all outer, t ∈ g.all inner := by
  rw [allBelow, List.mem_flatMap]

theorem mem_below_of_first? {name : String} (h : s.first? name = some t) :
    t ∈ s.below ∧ t.tag = name := by
  refine ⟨List.mem_of_find?_eq_some h, ?_⟩
  simpa using List.find?_some h

theorem mem_below_of_firstWith? {name key value : String}
    (h : s.firstWith? name key value = some t) : t ∈ s.below :=
  List.mem_of_find?_eq_some h

theorem mem_below_of_mem_allWith {name key value : String}
    (h : t ∈ s.allWith name key value) : t ∈ s.below :=
  List.mem_of_mem_filter h

end Site

end DesignAudit.Markup
