import DesignAudit.Occurrence.Tally
import DesignAudit.Proofs.Markup.Below
import DesignAudit.Proofs.Traversal

/-!
# The calculations that the audit of table occurrences depends on

The audit keeps the tables of the last queries and the patterns for queries from one calculation to
the next, and asks for them before they are there if the calculations come in the wrong order. What
matters of a calculation is said by an `Event`: where it stands and how it reads. An event may set up
what later ones ask for (`opens`), and it may ask for what has been set up (`Needs`).

`Follows` ties a part of the audit to the events in it: the part succeeds exactly if its events are
orderly, and it then leaves things set up exactly if they were before or an event did so. It is closed
under doing one part after the other and under going through a list, so that the whole audit follows
from its steps.
-/

namespace DesignAudit.Occurrence

open Markup Text Traversal

/-! ## Events -/

/-- Where a calculation stands. -/
inductive Place where
  /-- In a step of a script that is searched for queries. -/
  | step
  /-- In the condition that hides an object. -/
  | hide
  /-- In a tooltip or a conditional format. -/
  | control
  /-- Elsewhere in an object. -/
  | other
  deriving DecidableEq, Repr

/-- A calculation that the audit looks at. -/
structure Event where
  place : Place
  text : String
  deriving DecidableEq, Repr

/-- The events of a step of a script: its queries, if it is a step that is searched. -/
def stepEvents (step : Site) : List Event :=
  if queryStepNames.contains (stepName step) then
    (step.all "Calculation").flatMap fun c =>
      (c.node.text.filter runsQuery).toList.map (⟨.step, ·⟩)
  else []

/-- The event of a calculation of an object that controls nothing. -/
def otherEvents (c : Site) : List Event :=
  if controlNames.contains (c.parentTag?.getD "Calculation") then []
  else c.node.written?.toList.map (⟨.other, ·⟩)

/-- The events of an object, in the order in which they are looked at. -/
def objectEvents (object : Site) : List Event :=
  ((object.firstPath? "HideCondition" ["Calculation"]).bind (·.node.written?)).toList.map
    (⟨.hide, ·⟩) ++
  ((object.firstPath? "Tooltip" ["Calculation"]).bind (·.node.written?)).toList.map
    (⟨.control, ·⟩) ++
  ((object.allPath "ConditionalFormatting" ["Calculation"]).filterMap (·.node.written?)).map
    (⟨.control, ·⟩) ++
  (object.all "Calculation").flatMap otherEvents

/-- The events of a document, those of scripts before those of layouts. -/
def events (root : Site) : List Event :=
  ((root.all "Script").flatMap fun s => (s.all "Step").flatMap stepEvents) ++
    (root.all "Layout").flatMap fun l => (l.all "Object").flatMap objectEvents

/-- Whether an event sets up the patterns for queries: a query does in a step, and in a condition that
hides an object. -/
def Event.opens (e : Event) : Bool :=
  runsQuery e.text && (e.place == .step || e.place == .hide)

def Mentions (known : List String) (text : String) : Prop := ∃ name ∈ known, has name text = true

/-- An event that asks for what an earlier one has set up: a query outside of those places asks for
the patterns, and a known name in a calculation that controls an object asks for the tables of the
last queries, those of the calculation itself if it has some. -/
def Event.Needs (known : List String) (e : Event) : Prop :=
  match e.place with
  | .step => False
  | .hide => runsQuery e.text = false ∧ Mentions known e.text
  | .control => runsQuery e.text = true ∨ Mentions known e.text
  | .other => runsQuery e.text = true

/-- What a query reads is all blank between quotes of two kinds. -/
def IsBlankName (matched : List Char) : Prop :=
  trimOf '\'' (trimOf '"' (trim (String.ofList matched))) ≠ "" ∧
    firstWord? (trimOf '\'' (trimOf '"' (trim (String.ofList matched)))) = none

/-- An event whose queries read no table with a blank name. -/
def Event.Readable (e : Event) : Prop :=
  runsQuery e.text = true →
    ∀ matched ∈ tablePatterns.flatMap (·.findFirst e.text.toList), ¬ IsBlankName matched

/-- Events in an order in which nothing is asked for before it is set up; at first it is set up as
`opened` says. -/
def Orderly (known : List String) : Bool → List Event → Prop
  | _, [] => True
  | opened, e :: rest =>
    (e.Needs known → opened = true) ∧ e.Readable ∧ Orderly known (opened || e.opens) rest

section Decidable

variable (known : List String)

instance (text : String) : Decidable (Mentions known text) :=
  inferInstanceAs (Decidable (∃ name ∈ known, has name text = true))

instance : (e : Event) → Decidable (e.Needs known)
  | ⟨.step, _⟩ => isFalse id
  | ⟨.hide, text⟩ => inferInstanceAs (Decidable (runsQuery text = false ∧ Mentions known text))
  | ⟨.control, text⟩ => inferInstanceAs (Decidable (runsQuery text = true ∨ Mentions known text))
  | ⟨.other, text⟩ => inferInstanceAs (Decidable (runsQuery text = true))

instance (matched : List Char) : Decidable (IsBlankName matched) :=
  inferInstanceAs (Decidable (_ ∧ _))

instance (e : Event) : Decidable e.Readable :=
  inferInstanceAs (Decidable (runsQuery e.text = true → _))

instance decidableOrderly : (opened : Bool) → (es : List Event) →
    Decidable (Orderly known opened es)
  | _, [] => isTrue trivial
  | opened, e :: rest =>
    have := decidableOrderly (opened || e.opens) rest
    inferInstanceAs (Decidable ((e.Needs known → opened = true) ∧ e.Readable ∧ _))

end Decidable

theorem orderly_append {known : List String} {opened : Bool} {es fs : List Event} :
    Orderly known opened (es ++ fs) ↔
      Orderly known opened es ∧ Orderly known (opened || es.any Event.opens) fs := by
  induction es generalizing opened with
  | nil => simp [Orderly]
  | cons e rest ih =>
    rw [List.cons_append, Orderly, Orderly, ih, List.any_cons, Bool.or_assoc]
    simp only [and_assoc]

/-- Events are orderly exactly if each of them is readable and each that asks for something has an
event before it that sets it up. -/
theorem orderly_false_iff {known : List String} {es : List Event} :
    Orderly known false es ↔
      ∀ before e after, es = before ++ e :: after →
        e.Readable ∧ (e.Needs known → ∃ o ∈ before, o.opens = true) := by
  constructor
  · rintro h before e after rfl
    obtain ⟨hneeds, hreadable, -⟩ := (orderly_append.mp h).2
    refine ⟨hreadable, fun hn => ?_⟩
    simpa using hneeds hn
  · intro h
    -- from the end: the events that remain are orderly after those that came before
    have hrest : ∀ before rest, es = before ++ rest →
        Orderly known (before.any Event.opens) rest := by
      intro before rest
      induction rest generalizing before with
      | nil => exact fun _ => trivial
      | cons e rest ih =>
        intro heq
        obtain ⟨hreadable, hneeds⟩ := h before e rest heq
        refine ⟨fun hn => List.any_eq_true.mpr (hneeds hn), hreadable, ?_⟩
        have := ih (before ++ [e]) (by rw [heq, List.append_assoc]; rfl)
        simpa using this
    exact hrest [] es rfl

/-! ## Notes change nothing else -/

/-- What is set up in two tallies is the same. -/
structure Keeps (t u : Tally) : Prop where
  ready : u.ready = t.ready
  found : u.found = t.found

theorem Keeps.refl (t : Tally) : Keeps t t := ⟨rfl, rfl⟩

theorem Keeps.trans {t u v : Tally} (htu : Keeps t u) (huv : Keeps u v) : Keeps t v :=
  ⟨huv.ready.trans htu.ready, huv.found.trans htu.found⟩

theorem Keeps.foldl {α : Type} {f : Tally → α → Tally} (h : ∀ t x, Keeps t (f t x)) (xs : List α)
    (t : Tally) : Keeps t (xs.foldl f t) := by
  induction xs generalizing t with
  | nil => exact .refl t
  | cons x rest ih => exact (h t x).trans (ih (f t x))

namespace Tally

theorem note_keeps (t : Tally) (name text : String) : Keeps t (t.note name text) := ⟨rfl, rfl⟩

theorem noteNew_keeps (t : Tally) (name text : String) : Keeps t (t.noteNew name text) := by
  rw [noteNew]
  split
  · exact .refl t
  · exact note_keeps t name text

theorem noteAll_keeps (t : Tally) (names : List String) (text : String) :
    Keeps t (t.noteAll names text) :=
  Keeps.foldl (fun t name => note_keeps t name text) names t

theorem noteGiven_keeps (t : Tally) (name : Option String) (text : String) :
    Keeps t (t.noteGiven name text) := by
  rw [noteGiven]
  split
  · exact note_keeps t _ text
  · exact .refl t

/-- The patterns are set up exactly if there are tables of last queries. -/
def Consistent (t : Tally) : Prop := t.ready = t.found.isSome

end Tally

theorem Keeps.consistent {t u : Tally} (h : Keeps t u) (ht : t.Consistent) : u.Consistent := by
  rw [Tally.Consistent, h.ready, h.found]
  exact ht

/-! ## Parts of the audit -/

/-- A part of the audit succeeds exactly if its events are orderly, and leaves things set up exactly
if they were before or one of its events did so. -/
structure Follows (known : List String) (f : Tally → Except Fault Tally) (es : List Event) :
    Prop where
  succeeds : ∀ t, t.Consistent → ((∃ u, f t = .ok u) ↔ Orderly known t.ready es)
  leaves : ∀ t u, t.Consistent → f t = .ok u →
    u.Consistent ∧ u.ready = (t.ready || es.any Event.opens)

namespace Follows

variable {known : List String} {f g : Tally → Except Fault Tally} {es fs : List Event}

/-- A part that only makes notes has no events. -/
theorem of_keeps (h : ∀ t, ∃ u, f t = .ok u ∧ Keeps t u) : Follows known f [] where
  succeeds t _ := ⟨fun _ => trivial, fun _ => (h t).imp fun _ hu => hu.1⟩
  leaves t u ht hu := by
    obtain ⟨u', hu', hkeeps⟩ := h t
    obtain rfl : u' = u := Except.ok.inj (hu'.symm.trans hu)
    exact ⟨hkeeps.consistent ht, by simp [hkeeps.ready]⟩

/-- One part after the other has the events of both. -/
theorem bind (hf : Follows known f es) (hg : Follows known g fs) :
    Follows known (fun t => f t >>= g) (es ++ fs) where
  succeeds t ht := by
    rw [orderly_append, ← hf.succeeds t ht]
    constructor
    · rintro ⟨v, hv⟩
      obtain ⟨u, hu, hv⟩ := bind_eq_ok_iff.mp hv
      obtain ⟨hu', hready⟩ := hf.leaves t u ht hu
      rw [← hready, ← hg.succeeds u hu']
      exact ⟨⟨u, hu⟩, v, hv⟩
    · rintro ⟨⟨u, hu⟩, hfs⟩
      obtain ⟨hu', hready⟩ := hf.leaves t u ht hu
      rw [← hready, ← hg.succeeds u hu'] at hfs
      obtain ⟨v, hv⟩ := hfs
      exact ⟨v, bind_eq_ok_iff.mpr ⟨u, hu, hv⟩⟩
  leaves t v ht hv := by
    obtain ⟨u, hu, hv⟩ := bind_eq_ok_iff.mp hv
    obtain ⟨hu', hready⟩ := hf.leaves t u ht hu
    obtain ⟨hv', hready'⟩ := hg.leaves u v hu' hv
    exact ⟨hv', by rw [hready', hready, List.any_append, Bool.or_assoc]⟩

/-- Going through a list has the events of each member, in order. -/
theorem foldlM {α : Type} {step : Tally → α → Except Fault Tally} {events : α → List Event}
    {xs : List α} (h : ∀ x ∈ xs, Follows known (step · x) (events x)) :
    Follows known (xs.foldlM step ·) (xs.flatMap events) := by
  induction xs with
  | nil => exact of_keeps fun t => ⟨t, rfl, .refl t⟩
  | cons x rest ih =>
    rw [List.forall_mem_cons] at h
    simp only [List.foldlM_cons, List.flatMap_cons]
    exact h.1.bind (ih h.2)

/-- Going through a list whose members have no events. -/
theorem foldlM_nil {α : Type} {step : Tally → α → Except Fault Tally} {xs : List α}
    (h : ∀ x ∈ xs, Follows known (step · x) []) : Follows known (xs.foldlM step ·) [] := by
  have := foldlM h
  rwa [List.flatMap_eq_nil_iff.mpr fun _ _ => rfl] at this

/-- Notes made before a part change nothing. -/
theorem after_notes {k : Tally → Tally} (hk : ∀ t, Keeps t (k t)) (hf : Follows known f es) :
    Follows known (fun t => f (k t)) es :=
  (of_keeps fun t => ⟨k t, rfl, hk t⟩ : Follows known (fun t => pure (k t)) []).bind hf

/-- Notes made after a part change nothing. -/
theorem before_notes {k : Tally → Tally} (hk : ∀ t, Keeps t (k t)) (hf : Follows known f es) :
    Follows known (fun t => f t >>= fun u => pure (k u)) es := by
  have := hf.bind (of_keeps fun t => ⟨k t, rfl, hk t⟩ : Follows known (fun t => pure (k t)) [])
  rwa [List.append_nil] at this

end Follows

end DesignAudit.Occurrence
