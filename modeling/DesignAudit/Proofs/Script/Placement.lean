import DesignAudit.Proofs.Markup.Below
import DesignAudit.Proofs.Script.Entry

/-!
# References that can be placed

The caller of a reference is told by the elements around it. The only thing that can go wrong is a
trigger on a field that stands near the root of the document, outside of any base table: the search
for the table then leaves the document. `exists_fits_iff` says so for one reference and
`exists_referenceUsages_iff` for all references of a document.

Which elements are references depends on the marks by which definitions are known again. Where marks
are faithful (`Marks.Faithful`), the references are the elements that define nothing. Addresses are
such marks (`faithful_address`).
-/

namespace DesignAudit.Script

open Markup Text Traversal

/-- A field with fewer than four elements around it, none of them a base table. -/
def IsShallowField (n : Node) (above : List Node) : Prop :=
  n.tag = "Field" ∧ above.length < 4 ∧ ∀ m ∈ above, m.tag ≠ "BaseTable"

/-- One of the fifteen nearest elements around a place is a shallow field. -/
def InShallowField (s : Site) : Prop :=
  ∃ k < 15, ∃ n above, s.above.drop k = n :: above ∧ IsShallowField n above

def mentionsTrigger (path : String) : Bool :=
  meets ["Trigger", "ScriptTriggers", "OnRecordLoad", "OnRecordCommit", "OnLayoutEnter",
    "OnObjectModify", "OnObjectEnter", "OnObjectExit"] path

/-- A reference for which the search for its place leaves the document: it is neither in a step that
performs a script nor on a layout, it belongs to a trigger, and it stands in a shallow field. -/
structure Stumbles (i : Index) (s : Site) : Prop where
  noCaller : callingScript? i s = none
  noObject : objectUse? s (pathText s) = none
  trigger : mentionsTrigger (pathText s) = true
  shallow : InShallowField s

/-! ## The walk from a trigger outwards -/

theorem tableOfField_eq_error_iff {above : List Node} :
    (∃ fault, tableOfField above = .error fault) ↔
      above.length < 4 ∧ ∀ m ∈ above, m.tag ≠ "BaseTable" := by
  rw [tableOfField]
  split
  · rename_i t ht
    have htag : t.tag = "BaseTable" := by simpa using List.find?_some ht
    have hmem : t ∈ above := List.mem_of_mem_take (List.mem_of_find?_eq_some ht)
    constructor
    · rintro ⟨fault, h⟩
      cases h
    · rintro ⟨-, h⟩
      exact absurd htag (h t hmem)
  · rename_i hnone
    by_cases hshort : above.length < 4
    · rw [if_pos hshort]
      refine ⟨fun _ => ⟨hshort, fun m hm => ?_⟩, fun _ => ⟨_, rfl⟩⟩
      -- four elements or fewer are all among the five that are looked at
      have htake : above.take 5 = above := List.take_of_length_le (by omega)
      rw [htake] at hnone
      simpa using List.find?_eq_none.mp hnone m hm
    · rw [if_neg hshort]
      constructor
      · rintro ⟨fault, h⟩
        cases h
      · rintro ⟨h, -⟩
        exact absurd h hshort

theorem learn_eq_ok_iff {t : Trigger} {n : Node} {above : List Node} :
    (∃ t', t.learn n above = .ok t') ↔ ¬ IsShallowField n above := by
  rw [Trigger.learn]
  by_cases hfield : n.tag = "Field"
  · cases htable : tableOfField above with
    | ok table =>
      have hnot : ¬ IsShallowField n above := fun h => by
        obtain ⟨fault, hfault⟩ := tableOfField_eq_error_iff.mpr h.2
        rw [htable] at hfault
        cases hfault
      simp [hfield, hnot, bind, Except.bind, pure, Except.pure]
    | error fault =>
      have hshallow : IsShallowField n above :=
        ⟨hfield, tableOfField_eq_error_iff.mp ⟨fault, htable⟩⟩
      simp [hfield, hshallow, bind, Except.bind]
  · have hnot : ¬ IsShallowField n above := fun h => hfield h.1
    simp only [hnot, not_false_eq_true, iff_true, hfield, beq_iff_eq, if_false]
    split
    · exact ⟨_, rfl⟩
    · split <;> exact ⟨_, rfl⟩

/-- The walk outwards succeeds exactly if it meets no shallow field. -/
theorem around_eq_ok_iff (k : Nat) (t : Trigger) (above : List Node) :
    (∃ t', Trigger.around k t above = .ok t') ↔
      ∀ j < k, ∀ n rest, above.drop j = n :: rest → ¬ IsShallowField n rest := by
  induction k generalizing t above with
  | zero => exact ⟨fun _ j hj => absurd hj (Nat.not_lt_zero j), fun _ => ⟨t, rfl⟩⟩
  | succ k ih =>
    cases above with
    | nil =>
      refine ⟨fun _ j _ n rest h => ?_, fun _ => ⟨t, rfl⟩⟩
      rw [List.drop_nil] at h
      cases h
    | cons n above =>
      rw [Trigger.around]
      constructor
      · rintro ⟨t', h⟩ j hj m rest hdrop
        obtain ⟨t₁, hlearn, hrest⟩ := bind_eq_ok_iff.mp h
        cases j with
        | zero =>
          obtain ⟨rfl, rfl⟩ := List.cons.inj hdrop
          exact learn_eq_ok_iff.mp ⟨t₁, hlearn⟩
        | succ j => exact (ih t₁ above).mp ⟨t', hrest⟩ j (by omega) m rest hdrop
      · intro h
        obtain ⟨t₁, hlearn⟩ := learn_eq_ok_iff.mpr (h 0 (Nat.succ_pos k) n above rfl)
        obtain ⟨t', hrest⟩ := (ih t₁ above).mpr fun j hj m rest hdrop =>
          h (j + 1) (by omega) m rest hdrop
        exact ⟨t', bind_eq_ok_iff.mpr ⟨t₁, hlearn, hrest⟩⟩

theorem triggerUse?_eq_ok_iff {s : Site} {path : String} :
    (∃ u, triggerUse? s path = .ok u) ↔
      (mentionsTrigger path = true → ¬ InShallowField s) := by
  have hwalk : (∃ t, Trigger.around 15 {} s.above = .ok t) ↔ ¬ InShallowField s := by
    rw [around_eq_ok_iff]
    constructor
    · rintro h ⟨k, hk, n, above, hdrop, hshallow⟩
      exact h k hk n above hdrop hshallow
    · intro h j hj n rest hdrop hshallow
      exact h ⟨j, hj, n, rest, hdrop, hshallow⟩
  rw [triggerUse?]
  by_cases hm : mentionsTrigger path = true
  · rw [← hwalk]
    rw [mentionsTrigger] at hm
    simp only [hm, Bool.not_true, Bool.false_eq_true, if_false, forall_const, mentionsTrigger]
    constructor
    · rintro ⟨u, h⟩
      obtain ⟨t, ht, -⟩ := bind_eq_ok_iff.mp h
      exact ⟨t, ht⟩
    · rintro ⟨t, ht⟩
      rw [ht]
      exact ⟨_, rfl⟩
  · refine ⟨fun _ h => absurd h hm, fun _ => ⟨none, ?_⟩⟩
    rw [mentionsTrigger, Bool.not_eq_true] at hm
    simp only [hm]
    rfl

/-! ## One reference -/

/-- The checks behind that for triggers cannot fail. -/
theorem exists_fits_drop_three (i : Index) (s : Site) :
    ∃ caller text, Fits s ((checks i).drop 3) caller text := by
  refine exists_fits fun check hcheck => ?_
  simp only [checks, List.drop_succ_cons, List.drop_zero, List.mem_cons, List.not_mem_nil,
    or_false] at hcheck
  rcases hcheck with rfl | rfl | rfl | rfl <;> exact ⟨_, rfl⟩

/-- A reference can be placed exactly if it does not stumble. -/
theorem exists_fits_iff {i : Index} {s : Site} :
    (∃ caller text, Fits s (checks i) caller text) ↔ ¬ Stumbles i s := by
  have htrigger : (∃ caller text, Fits s ((checks i).drop 2) caller text) ↔
      ∃ found, triggerUse? s (pathText s) = .ok found := by
    refine exists_fits_cons.trans ⟨?_, ?_⟩
    · rintro (⟨text, hfind⟩ | ⟨hfind, -⟩)
      · exact ⟨some text, hfind⟩
      · exact ⟨none, hfind⟩
    · rintro ⟨found, hfind⟩
      cases found with
      | some text => exact .inl ⟨text, hfind⟩
      | none => exact .inr ⟨hfind, exists_fits_drop_three i s⟩
  rw [triggerUse?_eq_ok_iff] at htrigger
  -- the two checks before the triggers cannot fail, but they can end the search
  rw [checks, exists_fits_cons, exists_fits_cons]
  simp only [Except.ok.injEq]
  constructor
  · rintro (⟨text, hcall⟩ | ⟨-, ⟨text, hobject⟩ | ⟨-, hrest⟩⟩) hstumbles
    · rw [hstumbles.noCaller] at hcall
      cases hcall
    · rw [hstumbles.noObject] at hobject
      cases hobject
    · exact htrigger.mp hrest hstumbles.trigger hstumbles.shallow
  · intro h
    cases hcall : callingScript? i s with
    | some text => exact .inl ⟨text, rfl⟩
    | none =>
      refine .inr ⟨rfl, ?_⟩
      cases hobject : objectUse? s (pathText s) with
      | some text => exact .inl ⟨text, rfl⟩
      | none =>
        refine .inr ⟨rfl, htrigger.mpr fun hmentions hshallow => ?_⟩
        exact h ⟨hcall, hobject, hmentions, hshallow⟩

/-- The calls from scripts are those of steps that known scripts perform. -/
theorem fits_script_iff {i : Index} {s : Site} {name : String} :
    Fits s (checks i) .script name ↔ callingScript? i s = some name := by
  constructor
  · intro h
    cases h with
    | here hfind => exact Except.ok.inj hfind
    | later _ hrest =>
      rcases hrest.caller_eq with hcaller | hcaller
      · cases hcaller
      · simp at hcaller
  · intro h
    exact .here (congrArg Except.ok h)

/-! ## References of a document -/

/-- An element is known again as a definition if it is one, and only then. -/
def Marks.Faithful [Marks] (root : Site) : Prop :=
  ∀ d ∈ definitions root, ∀ s ∈ root.all "Script", Marks.first d = Marks.again s ↔ d = s

/-- The elements of a document have different addresses. -/
theorem faithful_address (root : Site) : Marks.Faithful root := by
  intro d hd s hs
  have hd := (Site.mem_all.mp (List.mem_of_mem_filter hd)).1
  have hs := (Site.mem_all.mp hs).1
  exact ⟨List.inj_on_of_nodup_map (Site.nodup_address_below root) hd hs, congrArg Site.address⟩

section

variable [Marks]

/-- With faithful marks the references are the elements that define nothing. -/
theorem Marks.Faithful.references_eq {root : Site} (h : Marks.Faithful root) :
    references root = (root.all "Script").filter fun s => !isDefinition s := by
  refine List.filter_congr fun s hs => ?_
  rw [Bool.not_inj_iff, Bool.eq_iff_iff, List.contains_iff_mem, List.mem_map]
  constructor
  · rintro ⟨d, hd, hmark⟩
    obtain rfl := (h d hd s hs).mp hmark
    exact (List.mem_filter.mp hd).2
  · intro hdefines
    have hmem : s ∈ definitions root := List.mem_filter.mpr ⟨hs, hdefines⟩
    exact ⟨s, hmem, (h s hmem s hs).mpr rfl⟩

/-- All references of a document that mean a script can be placed. -/
def AllPlaced (root : Site) : Prop :=
  ∀ s ∈ references root, (Index.of root |>.resolve? s.node).isSome →
    ¬ Stumbles (Index.of root) s

theorem mem_resolved {i : Index} {root s : Site} {name : String} :
    (s, name) ∈ resolved i root ↔ s ∈ references root ∧ i.resolve? s.node = some name := by
  rw [resolved, List.mem_filterMap]
  constructor
  · rintro ⟨t, ht, h⟩
    obtain ⟨n, hn, heq⟩ := Option.map_eq_some_iff.mp h
    obtain ⟨rfl, rfl⟩ := Prod.mk.inj heq
    exact ⟨ht, hn⟩
  · rintro ⟨hs, hname⟩
    exact ⟨s, hs, by rw [hname]; rfl⟩

/-- The references of a document can be entered exactly if every one that means a script can be
placed. -/
theorem exists_referenceUsages_iff {root : Site} :
    (∃ usages, referenceUsages (Index.of root) root = .ok usages) ↔ AllPlaced root := by
  refine (exists_enterAll_eq_ok_iff _).trans ?_
  simp only [exists_fits_iff]
  constructor
  · intro h s hs hname
    obtain ⟨name, hname⟩ := Option.isSome_iff_exists.mp hname
    exact h (s, name) (mem_resolved.mpr ⟨hs, hname⟩)
  · rintro h ⟨s, name⟩ hmem
    obtain ⟨hs, hname⟩ := mem_resolved.mp hmem
    exact h s hs (by rw [hname]; rfl)

/-- The entries are those of the references: the script that a reference means, called from where
the reference stands. -/
theorem mem_uses_iff {i : Index} {root : Site} {uses : List Use}
    (h : List.Forall₂ (Enters (checks i)) (resolved i root) uses) {name text : String}
    {caller : Caller} :
    (⟨name, caller, text⟩ : Use) ∈ uses ↔
      ∃ s ∈ references root, i.resolve? s.node = some name ∧ Fits s (checks i) caller text := by
  constructor
  · intro hmem
    obtain ⟨⟨s, means⟩, hs, hmeans, hfits⟩ := exists_mem_of_forall₂ h.flip hmem
    obtain rfl : name = means := hmeans
    obtain ⟨hs, hname⟩ := mem_resolved.mp hs
    exact ⟨s, hs, hname, hfits⟩
  · rintro ⟨s, hs, hname, hfits⟩
    obtain ⟨⟨script, caller', text'⟩, hmem, hmeans, hfits'⟩ :=
      exists_mem_of_forall₂ h (mem_resolved.mpr ⟨hs, hname⟩)
    obtain rfl : script = name := hmeans
    obtain ⟨rfl, rfl⟩ := hfits.unique hfits'
    exact hmem

end

end DesignAudit.Script
