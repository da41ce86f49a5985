import Mathlib.Data.List.Forall2

/-!
# Computations that may end with a fault

An audit goes through lists with a step that may end with a fault. `mapM_eq_ok_iff` says what such a
traversal gives when it succeeds, and `exists_mapM_eq_ok_iff` when it does: a traversal that collects
results succeeds exactly if every step does, whatever the order.
-/

namespace DesignAudit.Traversal

variable {ε α β : Type} {f : α → Except ε β} {xs : List α} {r : α → β → Prop}

@[simp]
theorem ok_bind (a : α) (f : α → Except ε β) : .ok a >>= f = f a := rfl

@[simp]
theorem error_bind (e : ε) (f : α → Except ε β) : .error e >>= f = .error e := rfl

/-- A computation in two parts succeeds exactly if the first part gives something for which the
second one succeeds. -/
theorem bind_eq_ok_iff {x : Except ε α} {b : β} :
    x >>= f = .ok b ↔ ∃ a, x = .ok a ∧ f a = .ok b := by
  cases x with
  | error e => simp [bind, Except.bind]
  | ok a => simp [bind, Except.bind]

/-- A computation in two parts ends with a fault if the first part does, or the second one after
it. -/
theorem bind_eq_error_iff {x : Except ε α} {e : ε} :
    x >>= f = .error e ↔ x = .error e ∨ ∃ a, x = .ok a ∧ f a = .error e := by
  cases x with
  | error d => simp [bind, Except.bind]
  | ok a => simp [bind, Except.bind]

theorem pure_eq_ok_iff {a b : α} : (pure a : Except ε α) = .ok b ↔ a = b := by
  simp [pure, Except.pure]

theorem isOk_iff {x : Except ε α} : x.isOk = true ↔ ∃ a, x = .ok a := by
  cases x with
  | error e => simp [Except.isOk, Except.toBool]
  | ok a => simp [Except.isOk, Except.toBool]

/-- A computation in two parts succeeds if each of the parts does. -/
theorem exists_bind_eq_ok {x : Except ε α} (hx : ∃ a, x = .ok a)
    (hf : ∀ a, ∃ b, f a = .ok b) : ∃ b, x >>= f = .ok b := by
  obtain ⟨a, ha⟩ := hx
  obtain ⟨b, hb⟩ := hf a
  exact ⟨b, bind_eq_ok_iff.mpr ⟨a, ha, hb⟩⟩

/-- A traversal gives one result for each member, in order. -/
theorem mapM_eq_ok_iff {ys : List β} :
    xs.mapM f = .ok ys ↔ List.Forall₂ (fun x y => f x = .ok y) xs ys := by
  induction xs generalizing ys with
  | nil =>
    rw [List.mapM_nil, pure_eq_ok_iff, List.forall₂_nil_left_iff]
    exact eq_comm
  | cons x rest ih =>
    rw [List.mapM_cons, bind_eq_ok_iff, List.forall₂_cons_left_iff]
    constructor
    · rintro ⟨y, hy, h⟩
      obtain ⟨ys', hys', h⟩ := bind_eq_ok_iff.mp h
      exact ⟨y, ys', hy, ih.mp hys', (pure_eq_ok_iff.mp h).symm⟩
    · rintro ⟨y, ys', hy, hys', rfl⟩
      exact ⟨y, hy, bind_eq_ok_iff.mpr ⟨ys', ih.mpr hys', rfl⟩⟩

/-- A traversal succeeds exactly if each of its steps does. -/
theorem exists_mapM_eq_ok_iff :
    (∃ ys, xs.mapM f = .ok ys) ↔ ∀ x ∈ xs, ∃ y, f x = .ok y := by
  induction xs with
  | nil => exact ⟨fun _ x hx => absurd hx List.not_mem_nil, fun _ => ⟨[], rfl⟩⟩
  | cons x rest ih =>
    rw [List.forall_mem_cons, ← ih]
    constructor
    · rintro ⟨ys, h⟩
      obtain ⟨y, ys', hy, hys', -⟩ := List.forall₂_cons_left_iff.mp (mapM_eq_ok_iff.mp h)
      exact ⟨⟨y, hy⟩, ys', mapM_eq_ok_iff.mpr hys'⟩
    · rintro ⟨⟨y, hy⟩, ys, hys⟩
      exact ⟨y :: ys, mapM_eq_ok_iff.mpr (.cons hy (mapM_eq_ok_iff.mp hys))⟩

/-- The results of a traversal are those of its steps. -/
theorem mem_of_mapM_eq_ok {ys : List β}
    (h : xs.mapM f = .ok ys) {y : β} : y ∈ ys ↔ ∃ x ∈ xs, f x = .ok y := by
  rw [mapM_eq_ok_iff] at h
  induction h with
  | nil => simp
  | @cons x z xs zs hxz _ ih =>
    rw [List.mem_cons, ih]
    constructor
    · rintro (rfl | ⟨x', hx', hy⟩)
      · exact ⟨x, List.mem_cons_self, hxz⟩
      · exact ⟨x', List.mem_cons_of_mem x hx', hy⟩
    · rintro ⟨x', hx', hy⟩
      rcases List.mem_cons.mp hx' with rfl | hx'
      · exact .inl (Except.ok.inj (hy.symm.trans hxz))
      · exact .inr ⟨x', hx', hy⟩

/-- What holds of all that the steps of a traversal collect holds of all that is collected. -/
theorem forall_flatten_of_mapM {f : α → Except ε (List β)} {p : β → Prop}
    {yss : List (List β)} (h : xs.mapM f = .ok yss)
    (hstep : ∀ x ∈ xs, ∀ ys, f x = .ok ys → ∀ y ∈ ys, p y) : ∀ y ∈ yss.flatten, p y := by
  intro y hy
  obtain ⟨ys, hys, hy⟩ := List.mem_flatten.mp hy
  obtain ⟨x, hx, hfx⟩ := (mem_of_mapM_eq_ok h).mp hys
  exact hstep x hx ys hfx y hy

/-! ## Lists that belong together -/

theorem exists_mem_of_forall₂ {l' : List α} {l : List β}
    (h : List.Forall₂ r l' l) {a' : α} (ha : a' ∈ l') : ∃ a ∈ l, r a' a := by
  induction h with
  | nil => cases ha
  | cons hsame _ ih =>
    rcases List.mem_cons.mp ha with rfl | ha
    · exact ⟨_, List.mem_cons_self, hsame⟩
    · obtain ⟨a, hmem, ha⟩ := ih ha
      exact ⟨a, List.mem_cons_of_mem _ hmem, ha⟩

/-- A list that is related to two lists behind each other is made of two such lists. -/
theorem exists_append_of_forall₂ {ys zs : List β} (h : List.Forall₂ r xs (ys ++ zs)) :
    ∃ us vs, xs = us ++ vs ∧ List.Forall₂ r us ys ∧ List.Forall₂ r vs zs :=
  ⟨xs.take ys.length, xs.drop ys.length, (List.take_append_drop _ xs).symm,
    List.forall₂_take_append _ _ _ h, List.forall₂_drop_append _ _ _ h⟩

/-- Some members of a list are related to some members of another one. -/
theorem exists_sublist_of_forall₂ {ys us : List β}
    (h : List.Forall₂ r xs ys) (hus : us.Sublist ys) :
    ∃ vs, vs.Sublist xs ∧ List.Forall₂ r vs us := by
  induction h generalizing us with
  | nil =>
    obtain rfl := List.sublist_nil.mp hus
    exact ⟨[], .slnil, .nil⟩
  | cons hxy _ ih =>
    cases hus with
    | cons _ hus =>
      obtain ⟨vs, hvs, hrel⟩ := ih hus
      exact ⟨vs, hvs.cons _, hrel⟩
    | cons_cons _ hus =>
      obtain ⟨vs, hvs, hrel⟩ := ih hus
      exact ⟨_, hvs.cons_cons _, .cons hxy hrel⟩

/-- Members that belong together through a list between them belong together. -/
theorem forall₂_trans {γ : Type} {s : β → γ → Prop} {t : α → γ → Prop}
    (hrst : ∀ a b c, r a b → s b c → t a c) {ys : List β} {zs : List γ}
    (hxy : List.Forall₂ r xs ys) (hyz : List.Forall₂ s ys zs) : List.Forall₂ t xs zs := by
  induction hxy generalizing zs with
  | nil =>
    cases hyz
    exact .nil
  | cons hr _ ih =>
    cases hyz with
    | cons hs hrest => exact .cons (hrst _ _ _ hr hs) (ih hrest)

/-- Where every member has an image, the images belong to the members one by one. -/
theorem forall₂_filterMap {f : α → Option β} (h : ∀ x ∈ xs, (f x).isSome = true) :
    List.Forall₂ (fun x y => f x = some y) xs (xs.filterMap f) := by
  induction xs with
  | nil => exact .nil
  | cons x xs ih =>
    rw [List.forall_mem_cons] at h
    obtain ⟨y, hy⟩ := Option.isSome_iff_exists.mp h.1
    rw [List.filterMap_cons_some hy]
    exact .cons hy (ih h.2)

/-- Members of one position belong together. -/
theorem exists_getElem?_of_forall₂ {ys : List β}
    (h : List.Forall₂ r xs ys) {i : Nat} {x : α} (hx : xs[i]? = some x) :
    ∃ y, ys[i]? = some y ∧ r x y := by
  induction h generalizing i with
  | nil => cases hx
  | cons hr _ ih =>
    cases i with
    | zero =>
      obtain rfl := Option.some.inj hx
      exact ⟨_, rfl, hr⟩
    | succ i => exact ih hx

end DesignAudit.Traversal
