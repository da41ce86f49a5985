import DesignAudit.Proofs.Register
import DesignAudit.Proofs.Traversal
import DesignAudit.Script.Reference

/-!
# Entries in the lists of callers

A reference goes through the checks in order, and where it ends is told by `Fits`. Whatever the
checks are, a reference that is entered makes one entry, in one of the eight lists of one script,
and leaves all other lists alone: `enter_eq_ok_iff` says which entry, and `adds_record` that there
is no other. Entering many references is the same as making the entries of a list of uses
(`enterAll_eq_ok_iff`), so a list of callers holds the uses of its own script by its own kind of
caller (`by_recordAll`).
-/

namespace DesignAudit.Script

open Markup Text Traversal

/-! ## One entry -/

theorem by_add (u : Usage) (text : String) (caller kind : Caller) :
    (u.add text caller).by kind = if kind = caller then u.by kind ++ [text] else u.by kind := by
  cases caller <;> cases kind <;> rfl

/-- The lists of one register are those of another one with one entry more, at the end of the list
of one kind of caller of one script. -/
def Adds (before after : Register Usage) (script : String) (caller : Caller) (text : String) : Prop :=
  ∀ name kind, (after.getD name {}).by kind =
    if name = script ∧ kind = caller then (before.getD name {}).by kind ++ [text]
    else (before.getD name {}).by kind

theorem adds_record (usages : Register Usage) (script : String) (caller : Caller) (text : String) :
    Adds usages (record usages script caller text) script caller text := by
  intro name kind
  rw [record, Register.update, Register.getD_insert]
  by_cases hname : name = script
  · subst hname
    rw [if_pos rfl, by_add]
    simp only [true_and]
  · rw [if_neg hname, if_neg fun h => hname h.1]

/-- Where a reference ends that goes through checks: at the first one that finds something, or as
one of unknown use. A check that fails ends the search without an entry. -/
inductive Fits (s : Site) : List Check → Caller → String → Prop
  | here {check : Check} {rest : List Check} {text : String} :
      check.find s (pathText s) = .ok (some text) → Fits s (check :: rest) check.caller text
  | later {check : Check} {rest : List Check} {caller : Caller} {text : String} :
      check.find s (pathText s) = .ok none → Fits s rest caller text →
        Fits s (check :: rest) caller text
  | unknown : Fits s [] .unknown (unknownText s (pathText s))

variable {caller : Caller} {cs : List Check} {usages usages' : Register Usage} {s : Site}
  {text : String}

/-- A reference fits in one place only. -/
theorem Fits.unique {caller caller' : Caller} {text text' : String} (h : Fits s cs caller text)
    (h' : Fits s cs caller' text') : caller = caller' ∧ text = text' := by
  induction h with
  | here hfind =>
    cases h' with
    | here hfind' => exact ⟨rfl, Option.some.inj (Except.ok.inj (hfind.symm.trans hfind'))⟩
    | later hfind' _ => cases hfind.symm.trans hfind'
  | later hfind _ ih =>
    cases h' with
    | here hfind' => cases hfind.symm.trans hfind'
    | later _ hrest => exact ih hrest
  | unknown =>
    cases h'
    exact ⟨rfl, rfl⟩

/-- A reference is entered once, where it fits. -/
theorem enter_eq_ok_iff {script : String} :
    enter s script cs usages = .ok usages' ↔
      ∃ caller text, Fits s cs caller text ∧ usages' = record usages script caller text := by
  induction cs with
  | nil =>
    rw [enter, Except.ok.injEq]
    constructor
    · rintro rfl
      exact ⟨_, _, .unknown, rfl⟩
    · rintro ⟨_, _, hfits, rfl⟩
      cases hfits
      rfl
  | cons check rest ih =>
    rw [enter, bind_eq_ok_iff]
    constructor
    · rintro ⟨found, hfind, hrest⟩
      cases found with
      | some text => exact ⟨_, text, .here hfind, (pure_eq_ok_iff.mp hrest).symm⟩
      | none =>
        obtain ⟨caller, text, hfits, hrecord⟩ := ih.mp hrest
        exact ⟨caller, text, .later hfind hfits, hrecord⟩
    · rintro ⟨caller, text, hfits, hrecord⟩
      cases hfits with
      | here hfind => exact ⟨some text, hfind, pure_eq_ok_iff.mpr hrecord.symm⟩
      | later hfind hfits => exact ⟨none, hfind, ih.mpr ⟨caller, text, hfits, hrecord⟩⟩

theorem exists_enter_eq_ok_iff (script : String) (usages : Register Usage) :
    (∃ usages', enter s script cs usages = .ok usages') ↔ ∃ caller text, Fits s cs caller text := by
  simp only [enter_eq_ok_iff]
  constructor
  · rintro ⟨_, caller, text, hfits, -⟩
    exact ⟨caller, text, hfits⟩
  · rintro ⟨caller, text, hfits⟩
    exact ⟨_, caller, text, hfits, rfl⟩

theorem exists_fits_cons {check : Check} {rest : List Check} :
    (∃ caller text, Fits s (check :: rest) caller text) ↔
      (∃ text, check.find s (pathText s) = .ok (some text)) ∨
        check.find s (pathText s) = .ok none ∧ ∃ caller text, Fits s rest caller text := by
  constructor
  · rintro ⟨caller, text, hfits⟩
    cases hfits with
    | here hfind => exact .inl ⟨text, hfind⟩
    | later hfind hfits => exact .inr ⟨hfind, caller, text, hfits⟩
  · rintro (⟨text, hfind⟩ | ⟨hfind, caller, text, hfits⟩)
    · exact ⟨_, text, .here hfind⟩
    · exact ⟨caller, text, .later hfind hfits⟩

/-- Checks that cannot fail place every reference. -/
theorem exists_fits (h : ∀ check ∈ cs, ∃ found, check.find s (pathText s) = .ok found) :
    ∃ caller text, Fits s cs caller text := by
  induction cs with
  | nil => exact ⟨_, _, .unknown⟩
  | cons check rest ih =>
    rw [List.forall_mem_cons] at h
    obtain ⟨found, hfind⟩ := h.1
    cases found with
    | some text => exact ⟨_, text, .here hfind⟩
    | none =>
      obtain ⟨caller, text, hfits⟩ := ih h.2
      exact ⟨caller, text, .later hfind hfits⟩

/-- The kind of caller is that of one of the checks, or unknown. -/
theorem Fits.caller_eq (h : Fits s cs caller text) :
    caller = .unknown ∨ caller ∈ cs.map Check.caller := by
  induction h with
  | here _ => exact .inr List.mem_cons_self
  | later _ _ ih => exact ih.imp_right (List.mem_cons_of_mem _)
  | unknown => exact .inl rfl

/-! ## Many entries -/

/-- An entry: the script that is used, who uses it, and how that is told. -/
structure Use where
  script : String
  caller : Caller
  text : String
  deriving DecidableEq, Repr

/-- The uses of a script by one kind of caller. -/
def usesBy (uses : List Use) (name : String) (caller : Caller) : List String :=
  (uses.filter fun u => u.script == name && u.caller == caller).map Use.text

theorem mem_usesBy {uses : List Use} {name text : String} :
    text ∈ usesBy uses name caller ↔ (⟨name, caller, text⟩ : Use) ∈ uses := by
  rw [usesBy, List.mem_map]
  constructor
  · rintro ⟨u, hu, rfl⟩
    obtain ⟨hmem, hcond⟩ := List.mem_filter.mp hu
    rw [Bool.and_eq_true, beq_iff_eq, beq_iff_eq] at hcond
    obtain ⟨rfl, rfl⟩ := hcond
    exact hmem
  · intro h
    exact ⟨_, List.mem_filter.mpr ⟨h, by simp⟩, rfl⟩

/-- Makes entries one after the other. -/
def recordAll (usages : Register Usage) (uses : List Use) : Register Usage :=
  uses.foldl (fun r u => record r u.script u.caller u.text) usages

theorem recordAll_cons (usages : Register Usage) (u : Use) (uses : List Use) :
    recordAll usages (u :: uses) =
      recordAll (record usages u.script u.caller u.text) uses := rfl

theorem recordAll_append (usages : Register Usage) (uses more : List Use) :
    recordAll usages (uses ++ more) = recordAll (recordAll usages uses) more :=
  List.foldl_append

/-- A list of callers receives the uses of its own script by its own kind of caller, in order. -/
theorem by_recordAll (usages : Register Usage) (uses : List Use) (name : String) (kind : Caller) :
    ((recordAll usages uses).getD name {}).by kind =
      (usages.getD name {}).by kind ++ usesBy uses name kind := by
  induction uses generalizing usages with
  | nil => exact (List.append_nil _).symm
  | cons u uses ih =>
    rw [recordAll_cons, ih, adds_record, usesBy, usesBy, List.filter_cons]
    by_cases h : name = u.script ∧ kind = u.caller
    · obtain ⟨rfl, rfl⟩ := h
      simp
    · have hnot : (u.script == name && u.caller == kind) = false := by
        rw [Bool.eq_false_iff, ne_eq, Bool.and_eq_true, beq_iff_eq, beq_iff_eq]
        exact fun hboth => h ⟨hboth.1.symm, hboth.2.symm⟩
      rw [if_neg h, hnot]
      rfl

/-- The entry that a reference to a script makes. -/
def Enters (cs : List Check) (r : Site × String) (u : Use) : Prop :=
  u.script = r.2 ∧ Fits r.1 cs u.caller u.text

theorem enterAll_cons (cs : List Check) (usages : Register Usage) (r : Site × String)
    (refs : List (Site × String)) :
    enterAll cs usages (r :: refs) = enter r.1 r.2 cs usages >>= (enterAll cs · refs) :=
  List.foldlM_cons

/-- Entering references one after the other makes one entry for each of them. -/
theorem enterAll_eq_ok_iff {refs : List (Site × String)} :
    enterAll cs usages refs = .ok usages' ↔
      ∃ uses, List.Forall₂ (Enters cs) refs uses ∧ usages' = recordAll usages uses := by
  induction refs generalizing usages with
  | nil =>
    rw [enterAll, List.foldlM_nil, pure_eq_ok_iff]
    constructor
    · rintro rfl
      exact ⟨[], .nil, rfl⟩
    · rintro ⟨uses, huses, rfl⟩
      cases huses
      rfl
  | cons r refs ih =>
    rw [enterAll_cons, bind_eq_ok_iff]
    constructor
    · rintro ⟨next, hnext, hrest⟩
      obtain ⟨caller, text, hfits, rfl⟩ := enter_eq_ok_iff.mp hnext
      obtain ⟨uses, huses, rfl⟩ := ih.mp hrest
      exact ⟨⟨r.2, caller, text⟩ :: uses, .cons ⟨rfl, hfits⟩ huses, rfl⟩
    · rintro ⟨uses, huses, rfl⟩
      cases huses with
      | cons hu huses =>
        refine ⟨_, enter_eq_ok_iff.mpr ⟨_, _, hu.2, rfl⟩, ih.mpr ⟨_, huses, ?_⟩⟩
        rw [recordAll_cons, hu.1]

/-- References can be entered if and only if each of them can be. -/
theorem exists_enterAll_eq_ok_iff {refs : List (Site × String)} (usages : Register Usage) :
    (∃ usages', enterAll cs usages refs = .ok usages') ↔
      ∀ r ∈ refs, ∃ caller text, Fits r.1 cs caller text := by
  induction refs generalizing usages with
  | nil => simp [enterAll, pure, Except.pure]
  | cons r refs ih =>
    rw [List.forall_mem_cons, ← exists_enter_eq_ok_iff r.2 usages, enterAll_cons]
    simp only [bind_eq_ok_iff]
    constructor
    · rintro ⟨usages', next, hnext, hrest⟩
      exact ⟨⟨next, hnext⟩, (ih next).mp ⟨usages', hrest⟩⟩
    · rintro ⟨⟨next, hnext⟩, hall⟩
      obtain ⟨usages', hrest⟩ := (ih next).mpr hall
      exact ⟨usages', next, hnext, hrest⟩

/-- The step of one reference among others: those before it have been entered, it makes one entry,
and those behind it follow. -/
theorem exists_adds_of_enterAll {earlier later : List (Site × String)} {script : String}
    (h : enterAll cs usages (earlier ++ (s, script) :: later) = .ok usages') :
    ∃ before after, enterAll cs usages earlier = .ok before ∧
      enter s script cs before = .ok after ∧ enterAll cs after later = .ok usages' ∧
      ∃ caller text, Adds before after script caller text := by
  rw [enterAll, List.foldlM_append, bind_eq_ok_iff] at h
  obtain ⟨before, hbefore, hrest⟩ := h
  obtain ⟨after, hafter, hrest⟩ := bind_eq_ok_iff.mp ((enterAll_cons _ _ _ _).symm.trans hrest)
  obtain ⟨caller, text, -, rfl⟩ := enter_eq_ok_iff.mp hafter
  exact ⟨before, _, hbefore, hafter, hrest, caller, text, adds_record before script caller text⟩

/-! ## The number of uses -/

/-- A list of callers that count is part of the number of uses. -/
theorem length_by_le_total (u : Usage) (h : caller ≠ .unknown) :
    (u.by caller).length ≤ u.total := by
  simp only [Usage.total, knownCallers, List.foldr_cons, List.foldr_nil]
  cases caller with
  | unknown => exact absurd rfl h
  | _ => omega

end DesignAudit.Script
