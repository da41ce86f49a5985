import DesignAudit.Catalog.Full
import DesignAudit.Layout.Definition
import DesignAudit.Proofs.Markup.Reader
import DesignAudit.Proofs.Markup.Within
import DesignAudit.Proofs.Register

/-!
# The folders of a catalogue

The items of a catalogue are collected on the way down, together with the names of the folders that
were passed. Looked at from below, an item is an element of its kind around which no other item and
no folder without a name stands inside of the catalogue, and its path are the names of the folders
around it (`itemsIn_eq`). Where the catalogues of a document lie apart from one another, going
through them one after the other is going through the document (`Apart.flatMap_below`), so that the
last element of a name in document order decides on the path that is kept under this name.
-/

namespace DesignAudit.Catalog

open Markup Text

/-- The elements around a place inside of the innermost catalogue, innermost first. -/
def inside (catalogue : String) (s : Site) : List Node := s.above.takeWhile (·.tag != catalogue)

/-- Whether a search for items of a kind goes on below an element: it is no item itself and no
folder without a name. -/
def isOpen (kind : String) (n : Node) : Bool :=
  n.tag != kind && (n.tag != "Group" || n.attr "name" != "")

/-- The names of the folders among elements that are given innermost first, outermost first. -/
def foldersAmong (ns : List Node) : List String :=
  ((ns.filter (·.tag == "Group")).map (·.attr "name")).reverse

theorem foldersAmong_cons_group {n : Node} (h : n.tag = "Group") (ns : List Node) :
    foldersAmong (n :: ns) = foldersAmong ns ++ [n.attr "name"] := by
  simp [foldersAmong, h]

theorem foldersAmong_cons_other {n : Node} (h : n.tag ≠ "Group") (ns : List Node) :
    foldersAmong (n :: ns) = foldersAmong ns := by
  simp [foldersAmong, h]

/-! ## The items below a catalogue -/

/-- Nothing is found below an element at which a search ends. -/
theorem filter_below_of_not_isOpen {kind : String} {s : Site} (h : isOpen kind s.node = false)
    (p : Site → Bool) : s.below.filter (fun t => p t && t.above.all (isOpen kind)) = [] := by
  rw [List.filter_eq_nil_iff]
  intro t ht hcond
  obtain ⟨between, habove, -⟩ := (Site.mem_below_iff.mp ht).above
  rw [Bool.and_eq_true, habove, List.all_append, List.all_cons, h] at hcond
  simp at hcond

mutual

theorem itemsOf_eq {kind : String} (hkind : kind ≠ "Group") {around : List Node}
    (haround : around.all (isOpen kind) = true) (address : List Nat) (n : Node) :
    itemsOf kind (foldersAmong around) n =
      ((sitesOf around address n).filter fun s => s.tag == kind && s.above.all (isOpen kind)).map
        fun s => (s.node, foldersAmong s.above) := by
  cases n with
  | mk k tag attributes text line children =>
    have hclosed := @filter_below_of_not_isOpen kind
      ⟨.mk k tag attributes text line children, around, address⟩
    have hrest := fun h => @itemsIn_eq kind hkind
      (.mk k tag attributes text line children :: around) h address 0 children
    rw [List.all_cons, haround, Bool.and_true] at hrest
    rw [itemsOf, sitesOf, List.filter_cons]
    simp only [Site.tag, Node.tag, haround, Bool.and_true, beq_iff_eq]
    by_cases hgroup : tag = "Group"
    · -- a folder is no item, and the search goes on in it only if it has a name
      subst hgroup
      rw [if_pos rfl, if_neg (Ne.symm hkind)]
      split
      · rename_i hname
        exact (congrArg (List.map _) (hclosed (by simp [isOpen, Node.tag, hname]) _)).symm
      · rename_i hname
        rw [← foldersAmong_cons_group rfl]
        exact hrest (by simp [isOpen, Node.tag, Ne.symm hkind, hname])
    · rw [if_neg hgroup]
      split
      · -- an item ends the search
        rename_i hitem
        rw [List.map_cons]
        have hnone := hclosed (by simp [isOpen, Node.tag, hitem]) (·.tag == kind)
        exact congrArg _ (congrArg (List.map _) hnone).symm
      · rename_i hitem
        rw [← foldersAmong_cons_other (n := .mk k tag attributes text line children) hgroup]
        exact hrest (by simp [isOpen, Node.tag, hitem, hgroup])

theorem itemsIn_eq {kind : String} (hkind : kind ≠ "Group") {around : List Node}
    (haround : around.all (isOpen kind) = true) (address : List Nat) (i : Nat) (ns : List Node) :
    itemsIn kind (foldersAmong around) ns =
      ((sitesIn around address i ns).filter fun s =>
        s.tag == kind && s.above.all (isOpen kind)).map
        fun s => (s.node, foldersAmong s.above) := by
  cases ns with
  | nil => rfl
  | cons n rest =>
    rw [itemsIn, sitesIn, List.filter_append, List.map_append,
      itemsOf_eq hkind haround (i :: address) n, itemsIn_eq hkind haround address (i + 1) rest]

end

/-! ## The folders below a catalogue -/

/-- A folder of a name is found below an element, with nothing between that ends the search. -/
def HoldsFolder (kind name : String) (s : Site) : Prop :=
  ∃ g ∈ s.below, g.tag = "Group" ∧ g.node.attr "name" = name ∧ name ≠ "" ∧
    ∃ between, g.above = between ++ s.node :: s.above ∧ between.all (isOpen kind) = true

theorem mem_foldersIn {kind name : String} {ns : List Node} :
    name ∈ foldersIn kind ns ↔ ∃ n ∈ ns, name ∈ foldersOf kind n := by
  induction ns with
  | nil => simp [foldersIn]
  | cons n ns ih =>
    rw [foldersIn, List.mem_append, ih]
    simp

/-- A search goes on at an element only if it is open, and a folder adds its own name. -/
theorem mem_foldersOf {kind name : String} (hkind : kind ≠ "Group") {n : Node} :
    name ∈ foldersOf kind n ↔ isOpen kind n = true ∧
      (n.tag = "Group" ∧ n.attr "name" = name ∨ name ∈ foldersIn kind n.children) := by
  cases n with
  | mk k tag attributes text line children =>
    rw [foldersOf]
    simp only [beq_iff_eq, isOpen, Node.tag, Bool.and_eq_true, Bool.or_eq_true, bne_iff_ne,
      Node.children]
    by_cases hgroup : tag = "Group"
    · subst hgroup
      rw [if_pos rfl]
      split
      · rename_i hname
        simp [hname]
      · rename_i hname
        simp [hname, Ne.symm hkind, @eq_comm _ name]
    · rw [if_neg hgroup]
      by_cases hitem : tag = kind
      · simp [hitem]
      · simp [hgroup, hitem]

/-- The names of the folders that are collected below an element, looked at from below. -/
theorem mem_foldersIn_children {kind name : String} (hkind : kind ≠ "Group") {s : Site} :
    name ∈ foldersIn kind s.node.children ↔ HoldsFolder kind name s := by
  induction s using Site.children_induction with
  | step s ih =>
    rw [mem_foldersIn]
    constructor
    · rintro ⟨n, hn, hname⟩
      obtain ⟨c, hc, rfl⟩ := Site.exists_mem_children hn
      have habove := Site.above_of_mem_children hc
      obtain ⟨hopen, ⟨hgroup, rfl⟩ | hname⟩ := (mem_foldersOf hkind).mp hname
      · refine ⟨c, Site.mem_below_of_mem_children hc, hgroup, rfl, ?_, [], habove, rfl⟩
        rw [isOpen, Bool.and_eq_true, hgroup] at hopen
        simpa using hopen.2
      · obtain ⟨g, hg, htag, hname, hne, between, hbetween, hall⟩ := (ih c hc).mp hname
        refine ⟨g, Site.below_trans (Site.mem_below_of_mem_children hc) hg, htag, hname, hne,
          between ++ [c.node], ?_, ?_⟩
        · rw [hbetween, habove, List.append_assoc]
          rfl
        · rw [List.all_append, hall, List.all_cons, hopen]
          rfl
    · rintro ⟨g, hg, htag, hname, hne, between, hbetween, hall⟩
      obtain ⟨c, hc, hg⟩ := Site.mem_below_iff_children.mp hg
      have habove := Site.above_of_mem_children hc
      refine ⟨c.node, Site.node_mem_of_mem_children hc, (mem_foldersOf hkind).mpr ?_⟩
      rcases hg with rfl | hg
      · refine ⟨?_, .inl ⟨htag, hname⟩⟩
        have htag : g.node.tag = "Group" := htag
        simp [isOpen, htag, hname, hne, Ne.symm hkind]
      · -- the element between the two that is nearest to the outer one is the child
        obtain ⟨inner, hinner, -⟩ := (Site.mem_below_iff.mp hg).above
        obtain rfl : between = inner ++ [c.node] := by
          rw [hinner, habove, List.append_cons] at hbetween
          exact (List.append_cancel_right hbetween).symm
        rw [List.all_append, List.all_cons, List.all_nil, Bool.and_true, Bool.and_eq_true] at hall
        exact ⟨hall.2, .inr ((ih c hc).mpr ⟨g, hg, htag, hname, hne, inner, hinner, hall.1⟩)⟩

/-! ## Catalogues that lie apart -/

/-- The catalogues of a name lie below the root of a document, and none lies in another one. -/
structure Apart (catalogue : String) (root : Site) : Prop where
  outside : ∀ n ∈ root.node :: root.above, n.tag ≠ catalogue
  nested : ∀ c ∈ root.all catalogue, c.all catalogue = []

/-- What lies in catalogues that lie apart, one catalogue after the other, is what has a catalogue
around it, in document order. -/
theorem Apart.flatMap_below {catalogue : String} {root : Site} (h : Apart catalogue root) :
    (root.all catalogue).flatMap Site.below =
      root.below.filter fun t => t.above.any (·.tag == catalogue) := by
  induction root using Site.children_induction with
  | step s ih =>
    rw [Site.all, Site.below_eq_flatMap, List.filter_flatMap, List.filter_flatMap,
      List.flatMap_assoc]
    refine List.flatMap_congr fun c hc => ?_
    have habove : c.above.any (·.tag == catalogue) = false := by
      rw [Site.above_of_mem_children hc, List.any_eq_false]
      intro n hn
      simpa using h.outside n hn
    have hmem := Site.mem_below_of_mem_children hc
    rw [List.filter_cons, List.filter_cons, habove]
    simp only [Bool.false_eq_true, if_false]
    by_cases htag : c.tag = catalogue
    · -- the child is a catalogue: it holds no other one, and all that is below it counts
      have hempty := h.nested c (Site.mem_all.mpr ⟨hmem, htag⟩)
      rw [if_pos (beq_iff_eq.mpr htag), List.flatMap_cons, ← Site.all, hempty, List.flatMap_nil,
        List.append_nil, eq_comm, List.filter_eq_self]
      intro t ht
      obtain ⟨between, heq, -⟩ := (Site.mem_below_iff.mp ht).above
      have hcatalogue : (c.node.tag == catalogue) = true := beq_iff_eq.mpr htag
      rw [heq, List.any_append, List.any_cons, hcatalogue, Bool.true_or, Bool.or_true]
    · rw [if_neg (mt beq_iff_eq.mp htag)]
      refine ih c hc ⟨?_, fun d hd => h.nested d ?_⟩
      · rw [Site.above_of_mem_children hc, List.forall_mem_cons]
        exact ⟨htag, h.outside⟩
      · obtain ⟨hd, htag⟩ := Site.mem_all.mp hd
        exact Site.mem_all.mpr ⟨Site.below_trans hmem hd, htag⟩

/-- Around an element in a catalogue stand the elements inside of the catalogue, then the catalogue.
-/
theorem Apart.above_eq {catalogue : String} {root c t : Site} (h : Apart catalogue root)
    (hc : c ∈ root.all catalogue) (ht : t ∈ c.below) :
    t.above = inside catalogue t ++ c.node :: c.above := by
  obtain ⟨between, heq, hbetween⟩ := (Site.mem_below_iff.mp ht).above
  have hnone : ∀ n ∈ between, (n.tag != catalogue) = true := by
    intro n hn
    obtain ⟨g, rfl, hg, -⟩ := hbetween n hn
    rw [bne_iff_ne]
    intro htag
    have hmem := Site.mem_all.mpr ⟨Site.mem_below_iff.mpr hg, htag⟩
    rw [h.nested c hc] at hmem
    cases hmem
  have htag : (c.node.tag != catalogue) = false := bne_eq_false_iff_eq.mpr (Site.mem_all.mp hc).2
  rw [inside, heq, List.takeWhile_append_of_pos hnone, List.takeWhile_cons_of_neg (by simp [htag]),
    List.append_nil]

/-- Whether an element lies in a catalogue, below no item and no folder without a name inside of it.
-/
def isShelved (catalogue kind : String) (s : Site) : Bool :=
  s.above.any (·.tag == catalogue) && (inside catalogue s).all (isOpen kind)

def pathOf (catalogue : String) (s : Site) : String :=
  pathText (foldersAmong (inside catalogue s))

/-- The name and the path of an element that is shelved and has an id and a name. -/
def entryPath? (catalogue kind : String) (s : Site) : Option (String × String) :=
  if isShelved catalogue kind s && (s.node.attr "id" != "" && s.node.attr "name" != "") then
    some (s.node.attr "name", pathOf catalogue s)
  else none

section Apart

variable {catalogue kind : String} {root : Site} (hkind : kind ≠ "Group")
  (h : Apart catalogue root)

include hkind h

theorem Apart.itemsIn_children {c : Site} (hc : c ∈ root.all catalogue) :
    itemsIn kind [] c.node.children =
      (c.below.filter fun s => s.tag == kind && (inside catalogue s).all (isOpen kind)).map
        fun s => (s.node, foldersAmong (inside catalogue s)) := by
  have hbelow : c.below =
      (sitesIn [] c.address 0 c.node.children).map (Site.within (c.node :: c.above)) :=
    sitesIn_append_above (c.node :: c.above) [] c.address 0 c.node.children
  have hinside : ∀ s ∈ sitesIn [] c.address 0 c.node.children,
      inside catalogue (s.within (c.node :: c.above)) = s.above := by
    intro s hs
    have habove := h.above_eq hc (hbelow ▸ List.mem_map_of_mem hs)
    exact (List.append_cancel_right habove).symm
  refine (@itemsIn_eq kind hkind [] rfl c.address 0 c.node.children).trans ?_
  rw [hbelow, List.filter_map, List.map_map]
  have hfilter : (sitesIn [] c.address 0 c.node.children).filter
      ((fun s => s.tag == kind && (inside catalogue s).all (isOpen kind)) ∘
        Site.within (c.node :: c.above)) =
      (sitesIn [] c.address 0 c.node.children).filter fun s =>
        s.tag == kind && s.above.all (isOpen kind) := by
    refine List.filter_congr fun s hs => ?_
    rw [Function.comp_apply, hinside s hs]
    rfl
  rw [hfilter]
  refine List.map_congr_left fun s hs => ?_
  rw [Function.comp_apply, hinside s (List.mem_of_mem_filter hs)]
  rfl

/-- The items of all catalogues are the elements that are shelved, in document order. -/
theorem Apart.flatMap_itemsIn :
    (root.all catalogue).flatMap (fun c => itemsIn kind [] c.node.children) =
      ((root.all kind).filter (isShelved catalogue kind)).map
        fun s => (s.node, foldersAmong (inside catalogue s)) := by
  rw [List.flatMap_congr fun c hc => h.itemsIn_children hkind hc, ← List.map_flatMap,
    ← List.filter_flatMap, h.flatMap_below, List.filter_filter, Site.all, List.filter_filter]
  congr 1
  refine List.filter_congr fun s _ => ?_
  rw [isShelved]
  ac_rfl

/-- The paths of the items in all catalogues, by name. -/
theorem Apart.paths_eq :
    Register.ofList ((placedItems catalogue kind root).map fun (name, p) => (name, p.path)) =
      .ofList ((root.all kind).filterMap (entryPath? catalogue kind)) := by
  rw [placedItems, ← List.filterMap_flatMap, h.flatMap_itemsIn hkind, List.filterMap_map,
    List.filterMap_filter, List.map_filterMap]
  congr 2
  funext s
  rw [entryPath?]
  cases isShelved catalogue kind s with
  | false => rfl
  | true =>
    simp only [if_true, Function.comp_apply, Bool.true_and]
    split <;> rfl

end Apart

/-! ## Paths by name -/

/-- An element lies in a catalogue, and inside of the catalogue neither below an item nor below a
folder without a name. -/
structure IsShelved (catalogue kind : String) (s : Site) : Prop where
  catalogued : ∃ n ∈ s.above, n.tag = catalogue
  no_item : ∀ n ∈ inside catalogue s, n.tag ≠ kind
  folders_named : ∀ n ∈ inside catalogue s, n.tag = "Group" → n.attr "name" ≠ ""

theorem isShelved_iff {catalogue kind : String} {s : Site} :
    isShelved catalogue kind s = true ↔ IsShelved catalogue kind s := by
  have hopen : ∀ n : Node, isOpen kind n = true ↔
      n.tag ≠ kind ∧ (n.tag = "Group" → n.attr "name" ≠ "") := by
    intro n
    simp [isOpen, imp_iff_not_or]
  rw [isShelved, Bool.and_eq_true, List.any_eq_true, List.all_eq_true]
  simp only [beq_iff_eq, hopen]
  constructor
  · rintro ⟨hcatalogue, hinside⟩
    exact ⟨hcatalogue, fun n hn => (hinside n hn).1, fun n hn => (hinside n hn).2⟩
  · rintro ⟨hcatalogue, hitem, hnamed⟩
    exact ⟨hcatalogue, fun n hn => ⟨hitem n hn, hnamed n hn⟩⟩

instance (catalogue kind : String) (s : Site) : Decidable (IsShelved catalogue kind s) :=
  decidable_of_iff _ isShelved_iff

/-- An element is an entry of a catalogue under a name: it is shelved and has the name and an id. -/
structure IsEntry (catalogue kind name : String) (s : Site) : Prop where
  shelved : IsShelved catalogue kind s
  name_eq : s.node.attr "name" = name
  id_ne : s.node.attr "id" ≠ ""

instance (catalogue kind name : String) (s : Site) : Decidable (IsEntry catalogue kind name s) :=
  decidable_of_iff (IsShelved catalogue kind s ∧ s.node.attr "name" = name ∧ s.node.attr "id" ≠ "")
    ⟨fun h => ⟨h.1, h.2.1, h.2.2⟩, fun h => ⟨h.1, h.2, h.3⟩⟩

theorem entryPath?_eq_some_iff {catalogue kind name path : String} (hname : name ≠ "") {s : Site} :
    entryPath? catalogue kind s = some (name, path) ↔
      IsEntry catalogue kind name s ∧ path = pathOf catalogue s := by
  rw [entryPath?, Option.ite_none_right_eq_some, Bool.and_eq_true, Bool.and_eq_true, isShelved_iff,
    bne_iff_ne, bne_iff_ne, Option.some_inj, Prod.mk.injEq]
  constructor
  · rintro ⟨⟨hshelved, hid, -⟩, rfl, rfl⟩
    exact ⟨⟨hshelved, rfl, hid⟩, rfl⟩
  · rintro ⟨⟨hshelved, rfl, hid⟩, rfl⟩
    exact ⟨⟨hshelved, hid, hname⟩, rfl, rfl⟩

/-- Paths by name that follow the catalogues of a document: a name has a path exactly if it has an
entry, and the path consists of the folders around the last entry in document order. -/
structure FollowsCatalogue (catalogue kind : String) (root : Site) (paths : Register String) :
    Prop where
  has_iff : ∀ name, name ≠ "" →
    (paths.has name = true ↔ ∃ s ∈ root.all kind, IsEntry catalogue kind name s)
  path_iff : ∀ name path, name ≠ "" →
    (paths.get? name = some path ↔
      ∃ earlier s later, root.all kind = earlier ++ s :: later ∧ IsEntry catalogue kind name s ∧
        (∀ t ∈ later, ¬ IsEntry catalogue kind name t) ∧
        path = pathText (foldersAmong (inside catalogue s)))

/-- The elements that are shelved and have an id. -/
def itemsWithId (catalogue kind : String) (root : Site) : List Site :=
  (root.all kind).filter fun s => isShelved catalogue kind s && s.node.attr "id" != ""

theorem mem_itemsWithId {catalogue kind : String} {root s : Site} :
    s ∈ itemsWithId catalogue kind root ↔
      s ∈ root.all kind ∧ IsShelved catalogue kind s ∧ s.node.attr "id" ≠ "" := by
  rw [itemsWithId, List.mem_filter, Bool.and_eq_true, isShelved_iff, bne_iff_ne]

/-- The items of the catalogues have pairwise distinct ids and names. -/
structure DistinctItems (catalogue kind : String) (root : Site) : Prop where
  ids : ((itemsWithId catalogue kind root).map (·.node.attr "id")).Nodup
  names : ((itemsWithId catalogue kind root).map (·.node.attr "name")).Nodup

section Apart

variable {catalogue kind : String} {root : Site} (hkind : kind ≠ "Group")
  (h : Apart catalogue root)

include hkind h

theorem Apart.follows :
    FollowsCatalogue catalogue kind root
      (.ofList ((placedItems catalogue kind root).map fun (name, p) => (name, p.path))) where
  has_iff name hname := by
    rw [h.paths_eq hkind, Register.has_ofList]
    simp only [List.mem_filterMap, entryPath?_eq_some_iff hname]
    constructor
    · rintro ⟨path, s, hs, hentry, -⟩
      exact ⟨s, hs, hentry⟩
    · rintro ⟨s, hs, hentry⟩
      exact ⟨_, s, hs, hentry, rfl⟩
  path_iff name path hname := by
    rw [h.paths_eq hkind, Register.get?_ofList_filterMap]
    refine exists_congr fun earlier => exists_congr fun s => exists_congr fun later =>
      and_congr_right fun _ => ?_
    simp only [ne_eq, entryPath?_eq_some_iff hname, not_and]
    constructor
    · rintro ⟨⟨hentry, rfl⟩, hlater⟩
      exact ⟨hentry, fun t ht hother => hlater t ht _ hother rfl, rfl⟩
    · rintro ⟨hentry, hlater, rfl⟩
      exact ⟨⟨hentry, rfl⟩, fun t ht _ hother => absurd hother (hlater t ht)⟩

/-- Where the names are distinct, the path of each entry is kept. -/
theorem Apart.get?_path (hdistinct : DistinctItems catalogue kind root) {name : String} {s : Site}
    (hname : name ≠ "") (hs : s ∈ root.all kind) (hentry : IsEntry catalogue kind name s) :
    (Register.ofList
      ((placedItems catalogue kind root).map fun (name, p) => (name, p.path))).get? name =
      some (pathOf catalogue s) := by
  rw [h.paths_eq hkind]
  refine Register.get?_ofList_of_unique
    (List.mem_filterMap.mpr ⟨s, hs, (entryPath?_eq_some_iff hname).mpr ⟨hentry, rfl⟩⟩)
    fun path hpath => ?_
  obtain ⟨t, ht, hpath⟩ := List.mem_filterMap.mp hpath
  obtain ⟨hother, rfl⟩ := (entryPath?_eq_some_iff hname).mp hpath
  have hsame := List.inj_on_of_nodup_map hdistinct.names
    (mem_itemsWithId.mpr ⟨ht, hother.shelved, hother.id_ne⟩)
    (mem_itemsWithId.mpr ⟨hs, hentry.shelved, hentry.id_ne⟩)
    (hother.name_eq.trans hentry.name_eq.symm)
  rw [hsame]

end Apart

/-! ## Paths of layouts by id -/

theorem named?_eq_some_iff {n : Node} {key value : String} :
    n.named? key = some value ↔ n.attr key = value ∧ value ≠ "" := by
  rw [Node.named?, Node.attr, Node.attrD]
  cases n.attr? key with
  | none => simp
  | some v => simp [Option.filter_eq_some_iff]

section Layouts

variable {root : Site} (h : Apart "LayoutCatalog" root) {c : Site}
  (hc : root.all "LayoutCatalog" = [c])

include h hc

theorem Apart.folderPaths_eq :
    Layout.folderPaths (Layout.catalogue? root) =
      .ofList (((root.all "Layout").filter (isShelved "LayoutCatalog" "Layout")).filterMap
        fun s => (s.node.named? "id").map (·, pathOf "LayoutCatalog" s)) := by
  have hfirst : Layout.catalogue? root = some c.node := by
    rw [Layout.catalogue?, Site.first?, ← List.head?_filter, ← Site.all, hc]
    rfl
  have hitems := h.flatMap_itemsIn (show "Layout" ≠ "Group" by decide)
  rw [hc, List.flatMap_singleton] at hitems
  rw [hfirst, Layout.folderPaths, hitems, List.filterMap_map]
  rfl

/-- Where the ids are distinct, the audit of layouts finds the path of each item by its id. -/
theorem Apart.get?_folderPaths (hdistinct : DistinctItems "LayoutCatalog" "Layout" root) {s : Site}
    (hs : s ∈ itemsWithId "LayoutCatalog" "Layout" root) :
    (Layout.folderPaths (Layout.catalogue? root)).get? (s.node.attr "id") =
      some (pathOf "LayoutCatalog" s) := by
  obtain ⟨hmem, hshelved, hid⟩ := mem_itemsWithId.mp hs
  rw [h.folderPaths_eq hc]
  refine Register.get?_ofList_of_unique (List.mem_filterMap.mpr
    ⟨s, List.mem_filter.mpr ⟨hmem, isShelved_iff.mpr hshelved⟩, ?_⟩) fun path hpath => ?_
  · rw [named?_eq_some_iff.mpr ⟨rfl, hid⟩]
    rfl
  · obtain ⟨t, ht, hpath⟩ := List.mem_filterMap.mp hpath
    obtain ⟨htmem, htshelved⟩ := List.mem_filter.mp ht
    obtain ⟨id, htid, hpair⟩ := Option.map_eq_some_iff.mp hpath
    obtain ⟨rfl, rfl⟩ := Prod.mk.inj hpair
    obtain ⟨heq, -⟩ := named?_eq_some_iff.mp htid
    have hsame := List.inj_on_of_nodup_map hdistinct.ids
      (mem_itemsWithId.mpr ⟨htmem, isShelved_iff.mp htshelved, heq ▸ hid⟩) hs heq
    rw [hsame]

end Layouts

def layoutDefinitions (root : Site) : List Site :=
  (root.all "Layout").filter (Layout.isDefinition (Layout.folderNames (Layout.catalogue? root)))

/-- A layout whose definitions all have one id is shown with the path of this id. -/
theorem get?_definitions {root : Site} {name id path : String}
    (hpath : (Layout.folderPaths (Layout.catalogue? root)).get? id = some path)
    (hdefined : ∃ d ∈ layoutDefinitions root, Layout.nameOf d = name)
    (hids : ∀ d ∈ layoutDefinitions root, Layout.nameOf d = name → d.node.attr "id" = id) :
    (Layout.definitions root).get? name = some path := by
  have hshown : (Layout.folderPaths (Layout.catalogue? root)).getD id "Top Level" = path := by
    rw [Register.getD, hpath, Option.getD_some]
  obtain ⟨d, hd, hname⟩ := hdefined
  refine Register.get?_ofList_of_unique (List.mem_map.mpr ⟨d, hd, ?_⟩) fun other hother => ?_
  · rw [hname, hids d hd hname, hshown]
  · obtain ⟨e, he, hpair⟩ := List.mem_map.mp hother
    obtain ⟨hname', rfl⟩ := Prod.mk.inj hpair
    rw [hids e he hname', hshown]

/-! ## The catalogue of a report -/

/-- **Folder paths follow the catalogues.** In a document whose catalogues lie below the root and
not in one another, a name has a path exactly if some element of this name with an id lies in a
catalogue, inside of it below no other item and no folder without a name. The path consists of the
folders around the last such element, outermost first. This holds of scripts and of layouts. Where
there is one catalogue of layouts, and its layouts have distinct ids and names, the path that the
audit of layouts finds by the id of a layout is the one that is kept under its name; it is shown for
the layout of this name if this is defined with this id only. -/
theorem paths_follow_catalogue {root : Site} (hscripts : Apart "ScriptCatalog" root)
    (hlayouts : Apart "LayoutCatalog" root) :
    FollowsCatalogue "ScriptCatalog" "Script" root (build root).scriptPaths ∧
    FollowsCatalogue "LayoutCatalog" "Layout" root (build root).layoutPaths ∧
    ∀ c, root.all "LayoutCatalog" = [c] → DistinctItems "LayoutCatalog" "Layout" root →
      ∀ s ∈ itemsWithId "LayoutCatalog" "Layout" root, s.node.attr "name" ≠ "" →
        (Layout.folderPaths (Layout.catalogue? root)).get? (s.node.attr "id") =
          (build root).layoutPaths.get? (s.node.attr "name") ∧
        (build root).layoutPaths.get? (s.node.attr "name") =
          some (pathText (foldersAmong (inside "LayoutCatalog" s))) ∧
        ((∃ d ∈ layoutDefinitions root, Layout.nameOf d = s.node.attr "name") →
          (∀ d ∈ layoutDefinitions root, Layout.nameOf d = s.node.attr "name" →
            d.node.attr "id" = s.node.attr "id") →
          (Layout.definitions root).get? (s.node.attr "name") =
            (build root).layoutPaths.get? (s.node.attr "name")) := by
  refine ⟨hscripts.follows (by decide), hlayouts.follows (by decide), ?_⟩
  intro c hc hdistinct s hs hname
  obtain ⟨hmem, hshelved, hid⟩ := mem_itemsWithId.mp hs
  have hbyName := hlayouts.get?_path (by decide) hdistinct hname hmem ⟨hshelved, rfl, hid⟩
  have hbyId := hlayouts.get?_folderPaths hc hdistinct hs
  exact ⟨hbyId.trans hbyName.symm, hbyName, fun hdefined hids =>
    (get?_definitions hbyId hdefined hids).trans hbyName.symm⟩

/-- A report with scripts in folders, in an element that is no folder, in another script and in a
folder without a name, and with two layouts. -/
def filedTree : Node :=
  let script (id name : String) (children : List Node) :=
    plain "Script" [("id", id), ("name", name)] children
  plain "F" []
    [plain "ScriptCatalog" []
      [plain "Group" [("name", "A")]
        [script "1" "S" [], plain "Group" [("name", "B")] [script "2" "S" [script "3" "T" []]],
         plain "Part" [] [script "4" "V" []]],
       plain "Group" [] [script "5" "U" []],
       script "6" "W" []],
     plain "LayoutCatalog" []
      [plain "Group" [("name", "G")] [plain "Layout" [("id", "7"), ("name", "L")] []],
       plain "Layout" [("id", "8"), ("name", "M")] []],
     plain "Layout" [("id", "7"), ("name", "L")] []]

/-- The second script `S` counts, and neither that in a script nor that in a folder without a name
has a path. The layout `L` is shown with the path that is kept under its name. -/
theorem filed_paths :
    (build (Site.root filedTree)).scriptPaths.get? "S" = some "A > B" ∧
    (build (Site.root filedTree)).scriptPaths.has "T" = false ∧
    (build (Site.root filedTree)).scriptPaths.has "U" = false ∧
    (build (Site.root filedTree)).scriptPaths.get? "V" = some "A" ∧
    (build (Site.root filedTree)).scriptPaths.get? "W" = some "Top Level" ∧
    (Layout.definitions (Site.root filedTree)).get? "L" =
      (build (Site.root filedTree)).layoutPaths.get? "L" := by
  have hscripts : Apart "ScriptCatalog" (Site.root filedTree) := ⟨by decide, by decide⟩
  have hlayouts : Apart "LayoutCatalog" (Site.root filedTree) := ⟨by decide, by decide⟩
  have hdistinct : DistinctItems "LayoutCatalog" "Layout" (Site.root filedTree) :=
    ⟨by decide, by decide⟩
  obtain ⟨⟨hhas, hpath⟩, -, hboth⟩ := paths_follow_catalogue hscripts hlayouts
  have hlayout := (hboth _ rfl hdistinct _ (List.get_mem _ ⟨0, by decide⟩) (by decide)).2.2
    (by decide) (by decide)
  have hnone : ∀ name, name ≠ "" →
      (¬ ∃ s ∈ (Site.root filedTree).all "Script", IsEntry "ScriptCatalog" "Script" name s) →
      (build (Site.root filedTree)).scriptPaths.has name = false := fun name hname hno =>
    Bool.eq_false_iff.mpr (mt (hhas name hname).mp hno)
  exact ⟨(hpath "S" _ (by decide)).mpr ⟨[_], _, _, rfl, by decide, by decide, by decide⟩,
    hnone "T" (by decide) (by decide), hnone "U" (by decide) (by decide),
    (hpath "V" _ (by decide)).mpr ⟨[_, _, _], _, _, rfl, by decide, by decide, by decide⟩,
    (hpath "W" _ (by decide)).mpr ⟨[_, _, _, _, _], _, _, rfl, by decide, by decide, by decide⟩,
    hlayout⟩

end DesignAudit.Catalog
