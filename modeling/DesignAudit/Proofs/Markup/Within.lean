import DesignAudit.Proofs.Markup.Below

/-!
# The same node inside of other nodes

`Site.within` puts nodes around a site, outside of those that it has already. All searches downwards
find the same nodes, in the same order, with the further nodes around them; so what is said of a site
by what lies below it is not changed by what is put around it. `Node.Extends` says that a document has
the children of another one, and more behind them. What lies below its root is then what lies below the
other root, seen within the new root, followed by what lies in the added children
(`Node.Extends.all_eq`).
-/

namespace DesignAudit.Markup

namespace Site

/-- A site with further nodes around it. -/
def within (outer : List Node) (s : Site) : Site := { s with above := s.above ++ outer }

variable (outer : List Node) (s : Site)

@[simp]
theorem node_within : (s.within outer).node = s.node := rfl

@[simp]
theorem tag_within : (s.within outer).tag = s.tag := rfl

@[simp]
theorem address_within : (s.within outer).address = s.address := rfl

@[simp]
theorem above_within : (s.within outer).above = s.above ++ outer := rfl

/-! ## Searches -/

@[simp]
theorem children_within : (s.within outer).children = s.children.map (within outer) := by
  rw [children, children, List.map_map]
  rfl

end Site

mutual

theorem sitesOf_append (outer above : List Node) (address : List Nat) (n : Node) :
    sitesOf (above ++ outer) address n = (sitesOf above address n).map (Site.within outer) := by
  cases n with
  | mk kind tag attributes text line children =>
    rw [sitesOf, sitesOf, List.map_cons]
    congr 1
    exact sitesIn_append_above outer (_ :: above) address 0 children

theorem sitesIn_append_above (outer above : List Node) (address : List Nat) (i : Nat)
    (ns : List Node) :
    sitesIn (above ++ outer) address i ns =
      (sitesIn above address i ns).map (Site.within outer) := by
  cases ns with
  | nil => rfl
  | cons n rest =>
    rw [sitesIn, sitesIn, List.map_append, sitesOf_append outer above (i :: address) n,
      sitesIn_append_above outer above address (i + 1) rest]

end

namespace Site

variable (outer : List Node) (s : Site)

@[simp]
theorem below_within : (s.within outer).below = s.below.map (within outer) :=
  sitesIn_append_above outer (s.node :: s.above) s.address 0 s.node.children

@[simp]
theorem all_within (name : String) :
    (s.within outer).all name = (s.all name).map (within outer) := by
  rw [all, below_within, List.filter_map]
  rfl

@[simp]
theorem allWith_within (name key value : String) :
    (s.within outer).allWith name key value = (s.allWith name key value).map (within outer) := by
  rw [allWith, below_within, List.filter_map]
  rfl

@[simp]
theorem first?_within (name : String) :
    (s.within outer).first? name = (s.first? name).map (within outer) := by
  rw [first?, below_within, List.find?_map]
  rfl

@[simp]
theorem firstWith?_within (name key value : String) :
    (s.within outer).firstWith? name key value =
      (s.firstWith? name key value).map (within outer) := by
  rw [firstWith?, below_within, List.find?_map]
  rfl

@[simp]
theorem childrenNamed_within (name : String) :
    (s.within outer).childrenNamed name = (s.childrenNamed name).map (within outer) := by
  rw [childrenNamed, children_within, List.filter_map]
  rfl

@[simp]
theorem down_within (names : List String) :
    (s.within outer).down names = (s.down names).map (within outer) := by
  induction names generalizing s with
  | nil => rfl
  | cons name names ih =>
    rw [down, down, childrenNamed_within, List.flatMap_map, List.map_flatMap]
    exact List.flatMap_congr fun c _ => ih c

@[simp]
theorem allPath_within (name : String) (names : List String) :
    (s.within outer).allPath name names = (s.allPath name names).map (within outer) := by
  rw [allPath, allPath, all_within, List.flatMap_map, List.map_flatMap]
  exact List.flatMap_congr fun c _ => down_within outer c names

@[simp]
theorem firstPath?_within (name : String) (names : List String) :
    (s.within outer).firstPath? name names = (s.firstPath? name names).map (within outer) := by
  rw [firstPath?, firstPath?, allPath_within, List.head?_map]

@[simp]
theorem allBelow_within (name inner : String) :
    (s.within outer).allBelow name inner = (s.allBelow name inner).map (within outer) := by
  rw [allBelow, allBelow, all_within, List.flatMap_map, List.map_flatMap]
  exact List.flatMap_congr fun c _ => all_within outer c inner

theorem up?_within (h : s.above ≠ []) : (s.within outer).up? = s.up?.map (within outer) := by
  obtain ⟨node, above, address⟩ := s
  cases above with
  | nil => exact absurd rfl h
  | cons n above =>
    cases address with
    | nil => rfl
    | cons i address => rfl

theorem above_ne_nil_of_mem_below {s t : Site} (h : t ∈ s.below) : t.above ≠ [] := by
  obtain ⟨between, habove, -⟩ := (mem_below_iff.mp h).above
  rw [habove]
  simp

end Site

/-! ## Documents with more children -/

/-- A root like another one, with further children behind the children of that one. -/
structure Node.Extends (n' n : Node) (added : List Node) : Prop where
  tag : n'.tag = n.tag
  attributes : n'.attributes = n.attributes
  children : n'.children = n.children ++ added

/-- What lies in some children, seen without the node that they belong to. -/
def Node.inside (n : Node) : List Site := sitesIn [] [] 0 n.children

theorem sitesIn_append (above : List Node) (address : List Nat) (i : Nat) (ms ns : List Node) :
    sitesIn above address i (ms ++ ns) =
      sitesIn above address i ms ++ sitesIn above address (i + ms.length) ns := by
  induction ms generalizing i with
  | nil => rfl
  | cons m ms ih =>
    rw [List.cons_append, sitesIn, sitesIn, ih, List.append_assoc, List.length_cons,
      Nat.add_right_comm, Nat.add_assoc]

theorem all_root (n : Node) (name : String) :
    (Site.root n).all name = (n.inside.filter (·.tag == name)).map (Site.within [n]) := by
  have hbelow : (Site.root n).below = n.inside.map (Site.within [n]) :=
    sitesIn_append_above [n] [] [] 0 n.children
  rw [Site.all, hbelow, List.filter_map]
  rfl

namespace Node.Extends

variable {n' n : Node} {added : List Node}

/-- A search from the root finds what it found before, within the new root, and then what was added. -/
theorem all_eq (h : n'.Extends n added) (name : String) :
    (Site.root n').all name = (n.inside.filter (·.tag == name)).map (Site.within [n']) ++
      (sitesIn [n'] [] n.children.length added).filter (·.tag == name) := by
  have hadded : sitesIn [n'] [] n.children.length added =
      (sitesIn [] [] n.children.length added).map (Site.within [n']) :=
    sitesIn_append_above [n'] [] [] n.children.length added
  rw [all_root, Node.inside, h.children, sitesIn_append, Nat.zero_add, List.filter_append,
    List.map_append, hadded, List.filter_map]
  rfl

section Collected

variable {α : Type} {g : Site → List α}

/-- What is collected from the elements of a name is collected again, with more behind it. -/
theorem prefix_flatMap_all (h : n'.Extends n added)
    (hg : ∀ s : Site, g (s.within [n']) = g (s.within [n])) (name : String) :
    ((Site.root n).all name).flatMap g <+: ((Site.root n').all name).flatMap g := by
  rw [h.all_eq, all_root, List.flatMap_append, List.flatMap_map, List.flatMap_map,
    List.flatMap_congr fun s _ => hg s]
  exact List.prefix_append _ _

/-- Where no element of the name is added, just the same is collected. -/
theorem flatMap_all_eq (h : n'.Extends n added)
    (hg : ∀ s : Site, g (s.within [n']) = g (s.within [n])) {name : String}
    (hadded : ∀ s ∈ sitesIn [n'] [] n.children.length added, s.tag ≠ name) :
    ((Site.root n').all name).flatMap g = ((Site.root n).all name).flatMap g := by
  have hnone : (sitesIn [n'] [] n.children.length added).filter (·.tag == name) = [] := by
    rw [List.filter_eq_nil_iff]
    intro s hs
    simpa using hadded s hs
  rw [h.all_eq, hnone, List.append_nil, all_root, List.flatMap_map, List.flatMap_map,
    List.flatMap_congr fun s _ => hg s]

end Collected

end Node.Extends

end DesignAudit.Markup
