import DesignAudit.Proofs.Occurrence.Completeness
import DesignAudit.Proofs.Text.Search

/-!
# What the notes on a calculation depend on

The audit of table occurrences compares each calculation that controls an object with the tables of the
last query that it has met, be it in another object, on another layout or in a script. A name that this
query reads is not noted again.

A `Look` is an event with the line that is noted for it, and `Tells` ties a part of the audit to its
looks: which tables it leaves behind, and which lines it adds to the notes on a name. Like `Follows` it is
closed under doing one part after the other and under going through a list. So the lines of a whole
document are those that its looks give, each with the tables of the last query before it
(`control_line_noted_iff`).
-/

namespace DesignAudit.Occurrence

open Markup Text Traversal

variable {known : List String}

/-! ## Looks -/

/-- An event, and the line that is noted for it. -/
structure Look where
  label : String
  event : Event

/-- The tables of the last query, after a look. -/
def Look.leaves (known : List String) (found : Option (List String)) (x : Look) :
    Option (List String) :=
  if runsQuery x.event.text then (queryTables known x.event.text).toOption else found

/-- A look gives a line to the notes on a name, where the last query has read the given tables, that of
the look itself included. -/
def Look.Gives (known : List String) (x : Look) (tables : List String) (n line : String) : Prop :=
  match x.event.place with
  | .step => n ∈ tables ∧ line = x.label
  | .hide | .control =>
    (runsQuery x.event.text = true ∧ n ∈ tables ∧ line = x.label ++ " (ExecuteSQL)") ∨
      (n ∈ occurring known x.event.text ∧ n ∉ tables ∧ line = x.label)
  | .other =>
    (runsQuery x.event.text = true ∧ n ∈ tables ∧ line = x.label ++ " (ExecuteSQL)") ∨
      (n ∈ occurring known x.event.text ∧ line = x.label)

/-- The tables of the last query, after some looks. -/
def lastTables (known : List String) (found : Option (List String)) (looks : List Look) :
    Option (List String) :=
  looks.foldl (Look.leaves known) found

/-- The tables that the last query of some looks has read. -/
def tablesAfter (known : List String) (looks : List Look) : List String :=
  (lastTables known none looks).getD []

/-- Some looks give a line to the notes on a name. -/
def Told (known : List String) (n line : String) : Option (List String) → List Look → Prop
  | _, [] => False
  | found, x :: rest =>
    x.Gives known ((x.leaves known found).getD []) n line ∨
      Told known n line (x.leaves known found) rest

/-- The last query of some looks reads a table. -/
def ReadLast (known : List String) (n : String) (looks : List Look) : Prop :=
  ∃ before q between tables, looks = before ++ q :: between ∧ runsQuery q.event.text = true ∧
    (∀ x ∈ between, runsQuery x.event.text = false) ∧
    queryTables known q.event.text = .ok tables ∧ n ∈ tables

variable {x : Look} {found : Option (List String)} {q : String}

theorem told_append {n line : String} {xs ys : List Look} :
    Told known n line found (xs ++ ys) ↔
      Told known n line found xs ∨ Told known n line (lastTables known found xs) ys := by
  induction xs generalizing found with
  | nil => exact (or_iff_right id).symm
  | cons x rest ih => rw [List.cons_append, Told, ih, Told, or_assoc]; rfl

/-- A line is given by one of the looks, with the tables of the last query up to it. -/
theorem told_iff_exists {n line : String} {looks : List Look} :
    Told known n line found looks ↔ ∃ (i : Nat) (x : Look), looks[i]? = some x ∧
      x.Gives known ((lastTables known found (looks.take (i + 1))).getD []) n line := by
  induction looks generalizing found with
  | nil => simp [Told]
  | cons x rest ih =>
    rw [Told, ih]
    constructor
    · rintro (hgives | ⟨i, y, hy, hgives⟩)
      · exact ⟨0, x, rfl, hgives⟩
      · exact ⟨i + 1, y, hy, hgives⟩
    · rintro ⟨i, y, hy, hgives⟩
      cases i with
      | zero =>
        obtain rfl := Option.some.inj hy
        exact .inl hgives
      | succ i => exact .inr ⟨i, y, hy, hgives⟩

theorem readLast_cons {rest : List Look} {n : String} :
    ReadLast known n (x :: rest) ↔ ReadLast known n rest ∨
      (∀ y ∈ rest, runsQuery y.event.text = false) ∧ runsQuery x.event.text = true ∧
        n ∈ (queryTables known x.event.text).toOption.getD [] := by
  constructor
  · rintro ⟨before, q, between, tables, heq, hq, hbetween, htables, hn⟩
    cases before with
    | nil =>
      obtain ⟨rfl, rfl⟩ := List.cons.inj heq
      exact .inr ⟨hbetween, hq, by rw [htables]; exact hn⟩
    | cons y before =>
      exact .inl ⟨before, q, between, tables, (List.cons.inj heq).2, hq, hbetween, htables, hn⟩
  · rintro (⟨before, q, between, tables, rfl, h⟩ | ⟨hrest, hx, hn⟩)
    · exact ⟨x :: before, q, between, tables, rfl, h⟩
    · cases htables : queryTables known x.event.text with
      | error fault => simp [htables, Except.toOption] at hn
      | ok tables => exact ⟨[], x, rest, tables, rfl, hx, hrest, htables, by rwa [htables] at hn⟩

/-- The tables that the looks leave behind are those of their last query, or those from before if they
have no query. -/
theorem mem_lastTables_iff {looks : List Look} {n : String} :
    n ∈ (lastTables known found looks).getD [] ↔ ReadLast known n looks ∨
      (∀ x ∈ looks, runsQuery x.event.text = false) ∧ n ∈ found.getD [] := by
  induction looks generalizing found with
  | nil => simp [lastTables, ReadLast]
  | cons x rest ih =>
    have hstep : lastTables known found (x :: rest) =
        lastTables known (x.leaves known found) rest := rfl
    rw [hstep, ih, readLast_cons, List.forall_mem_cons, Look.leaves]
    cases hx : runsQuery x.event.text <;> simp

theorem mem_tablesAfter_iff {looks : List Look} {n : String} :
    n ∈ tablesAfter known looks ↔ ReadLast known n looks := by
  rw [tablesAfter, mem_lastTables_iff]
  simp

theorem tablesAfter_append (looks : List Look) (x : Look) :
    tablesAfter known (looks ++ [x]) =
      if runsQuery x.event.text then (queryTables known x.event.text).toOption.getD []
      else tablesAfter known looks := by
  rw [tablesAfter, lastTables, List.foldl_append, List.foldl_cons, List.foldl_nil, Look.leaves]
  split <;> rfl

instance (looks : List Look) (n : String) : Decidable (ReadLast known n looks) :=
  decidable_of_iff _ mem_tablesAfter_iff

instance : (x : Look) → (tables : List String) → (n line : String) →
    Decidable (x.Gives known tables n line)
  | ⟨_, .step, _⟩, _, _, _ => inferInstanceAs (Decidable (_ ∧ _))
  | ⟨_, .hide, _⟩, _, _, _ => inferInstanceAs (Decidable (_ ∨ _))
  | ⟨_, .control, _⟩, _, _, _ => inferInstanceAs (Decidable (_ ∨ _))
  | ⟨_, .other, _⟩, _, _, _ => inferInstanceAs (Decidable (_ ∨ _))

/-! ## The looks of a document -/

def stepLooks (script : String) (step : Site) : List Look :=
  (stepEvents step).map (⟨stepLabel script step ++ stepName step ++ " (ExecuteSQL)", ·⟩)

/-- The looks at the calculations that control an object: the first condition that hides it, the first
tooltip, and each conditional format. -/
def controlLooks (layout : String) (object : Site) : List Look :=
  ((object.firstPath? "HideCondition" ["Calculation"]).bind (·.node.written?)).toList.map
    (fun q => ⟨"Hide Condition" ++ objectSuffix layout object, .hide, q⟩) ++
  (((object.firstPath? "Tooltip" ["Calculation"]).bind (·.node.written?)).toList.map
    (fun q => ⟨"Tooltip" ++ objectSuffix layout object, .control, q⟩) ++
  ((object.allPath "ConditionalFormatting" ["Calculation"]).filterMap (·.node.written?)).map
    (fun q => ⟨"Conditional Format" ++ objectSuffix layout object, .control, q⟩))

/-- The looks at the other calculations of an object. -/
def otherLooks (layout : String) (object : Site) : List Look :=
  (object.all "Calculation").flatMap fun c =>
    (otherEvents c).map (⟨c.parentTag?.getD "Calculation" ++ objectSuffix layout object, ·⟩)

/-- The looks at a document, those of scripts before those of layouts. -/
def looks (root : Site) : List Look :=
  ((root.all "Script").flatMap fun s =>
    (s.all "Step").flatMap (stepLooks (s.node.attrD "name" "Unknown Script"))) ++
  (root.all "Layout").flatMap fun l => (l.all "Object").flatMap fun object =>
    controlLooks (l.node.attrD "name" "Unknown Layout") object ++
      otherLooks (l.node.attrD "name" "Unknown Layout") object

/-! ## Notes -/

namespace Tally

variable {t u : Tally} {n line name text : String}

theorem mem_on_note : line ∈ (t.note name text).on n ↔ line ∈ t.on n ∨ n = name ∧ line = text := by
  rw [on, note, Register.update, Register.getD_insert]
  split
  · rename_i hname
    subst hname
    simp [on]
  · rename_i hname
    simp [on, hname]

theorem mem_on_noteNew :
    line ∈ (t.noteNew name text).on n ↔ line ∈ t.on n ∨ n = name ∧ line = text := by
  rw [noteNew]
  split
  · rename_i hthere
    refine (or_iff_left_of_imp ?_).symm
    rintro ⟨rfl, rfl⟩
    exact List.contains_iff_mem.mp hthere
  · exact mem_on_note

/-- The lines that are noted in going through a list. -/
theorem mem_on_foldl {α : Type} {f : Tally → α → Tally} (adds : α → Prop)
    (h : ∀ t x, line ∈ (f t x).on n ↔ line ∈ t.on n ∨ adds x) (xs : List α) :
    line ∈ (xs.foldl f t).on n ↔ line ∈ t.on n ∨ ∃ x ∈ xs, adds x := by
  induction xs generalizing t with
  | nil => simp
  | cons x rest ih => simp only [List.foldl_cons, ih, h, or_assoc, List.mem_cons, exists_eq_or_imp]

theorem mem_on_noteAll {names : List String} :
    line ∈ (t.noteAll names text).on n ↔ line ∈ t.on n ∨ n ∈ names ∧ line = text := by
  rw [noteAll, mem_on_foldl (fun name => n = name ∧ line = text) fun _ _ => mem_on_note]
  simp

/-- A query leaves its tables behind and notes them. -/
theorem noteQuery_spec {q : String} (h : t.noteQuery known q text = .ok u) :
    u.found = (queryTables known q).toOption ∧
      ∀ n line, line ∈ u.on n ↔ line ∈ t.on n ∨ n ∈ u.found.getD [] ∧ line = text := by
  obtain ⟨-, tables, htables, rfl⟩ := noteQuery_eq_ok_iff.mp h
  have hfound := (noteAll_keeps { t with found := some tables } tables text).found
  rw [hfound, htables]
  exact ⟨rfl, fun n line => mem_on_noteAll⟩

/-- The names in a calculation are noted unless the last query reads them. -/
theorem noteOccurring_spec {q : String} (h : t.noteOccurring known q text = .ok u) :
    u.found = t.found ∧ ∀ n line, line ∈ u.on n ↔
      line ∈ t.on n ∨ n ∈ occurring known q ∧ n ∉ t.found.getD [] ∧ line = text := by
  refine ⟨(keeps_of_noteOccurring h).found, fun n line => ?_⟩
  rw [noteOccurring] at h
  split at h
  · rename_i hnone
    obtain rfl := Except.ok.inj h
    simp [hnone]
  · cases h
  · rename_i found hfound _
    obtain rfl := Except.ok.inj h
    rw [mem_on_noteAll, hfound]
    simp [and_assoc]

end Tally

/-! ## Notes on other things -/

/-- How the lines begin that are noted for steps, layouts, fields, portals and placeholders. -/
def otherOpenings : List String :=
  ["Script '", "Layout '", "Field Layout '", "Portal ", "Placeholder Text"]

/-- The tables of the last query are the same in two tallies, and so are the lines that begin
otherwise. -/
structure Mute (t u : Tally) : Prop where
  found : u.found = t.found
  on_iff : ∀ {n line}, opensWith otherOpenings line = false → (line ∈ u.on n ↔ line ∈ t.on n)

theorem Mute.refl (t : Tally) : Mute t t := ⟨rfl, fun _ => .rfl⟩

theorem Mute.trans {t u v : Tally} (htu : Mute t u) (huv : Mute u v) : Mute t v :=
  ⟨huv.found.trans htu.found, fun hline => (huv.on_iff hline).trans (htu.on_iff hline)⟩

theorem Mute.of_pure {t u v : Tally} (h : Mute t u) (hv : (pure u : Except Fault Tally) = .ok v) :
    Mute t v :=
  pure_eq_ok_iff.mp hv ▸ h

theorem Mute.foldl {α : Type} {f : Tally → α → Tally} (h : ∀ t x, Mute t (f t x)) (xs : List α)
    (t : Tally) : Mute t (xs.foldl f t) := by
  induction xs generalizing t with
  | nil => exact .refl t
  | cons x rest ih => exact (h t x).trans (ih (f t x))

section Mute

variable {text : String} (htext : opensWith otherOpenings text = true)
include htext

theorem note_mute (t : Tally) (name : String) : Mute t (t.note name text) := by
  refine ⟨rfl, fun hline => ?_⟩
  rw [Tally.mem_on_note]
  refine or_iff_left ?_
  rintro ⟨-, rfl⟩
  rw [htext] at hline
  cases hline

theorem noteNew_mute (t : Tally) (name : String) : Mute t (t.noteNew name text) := by
  rw [Tally.noteNew]
  split
  · exact .refl t
  · exact note_mute htext t name

theorem noteAll_mute (t : Tally) (names : List String) : Mute t (t.noteAll names text) :=
  Mute.foldl (fun t name => note_mute htext t name) names t

theorem noteGiven_mute (t : Tally) (name : Option String) : Mute t (t.noteGiven name text) := by
  rw [Tally.noteGiven]
  split
  · exact note_mute htext t _
  · exact .refl t

theorem noteFields_mute (t : Tally) (step : Site) : Mute t (t.noteFields text step) := by
  refine Mute.foldl (fun t f => ?_) _ t
  split
  · exact noteNew_mute htext t _
  · exact .refl t

end Mute

theorem noteTarget_mute {label : String} (hlabel : opensWith otherOpenings label = true)
    (step : Site) (t : Tally) : Mute t (t.noteTarget known label step) := by
  rw [Tally.noteTarget]
  split
  · split
    · refine Mute.foldl (fun t n => ?_) _ t
      split
      · exact .refl t
      · exact note_mute (opensWith_append₂ hlabel _ _) t n
    · exact .refl t
  · split
    · split
      · exact noteGiven_mute (opensWith_append (opensWith_append₂ hlabel _ _) _) t _
      · exact .refl t
    · exact .refl t

/-! ## Parts of the audit -/

/-- A part of the audit leaves the tables of the last query of its looks behind, and adds the lines
that they give to those that do not begin as the lines of other things do. -/
structure Tells (known : List String) (f : Tally → Except Fault Tally) (xs : List Look) : Prop where
  found : ∀ {t u}, f t = .ok u → u.found = lastTables known t.found xs
  on_iff : ∀ {t u}, f t = .ok u → ∀ {n line}, opensWith otherOpenings line = false →
    (line ∈ u.on n ↔ line ∈ t.on n ∨ Told known n line t.found xs)

namespace Tells

variable {f g : Tally → Except Fault Tally} {xs ys : List Look}

/-- A part that notes other things has no looks. -/
theorem of_mute (h : ∀ {t u}, f t = .ok u → Mute t u) : Tells known f [] where
  found hu := (h hu).found
  on_iff hu _ _ hline := ((h hu).on_iff hline).trans (or_iff_left id).symm

variable {k : Tally → Tally} {α : Type}

/-- Notes on other things are such a part. -/
theorem of_notes (hk : ∀ t, Mute t (k t)) :
    Tells known (fun t => pure (k t)) [] :=
  of_mute fun {t _} => (hk t).of_pure

theorem of_gives {x : Look} (hfound : ∀ {t u}, f t = .ok u → u.found = x.leaves known t.found)
    (hon : ∀ {t u}, f t = .ok u → ∀ n line,
      line ∈ u.on n ↔ line ∈ t.on n ∨ x.Gives known (u.found.getD []) n line) :
    Tells known f [x] where
  found hu := hfound hu
  on_iff {t u} hu n line _ := by
    rw [hon hu, hfound hu, Told, Told, or_false]

/-- One part after the other has the looks of both. -/
theorem bind (hf : Tells known f xs) (hg : Tells known g ys) :
    Tells known (fun t => f t >>= g) (xs ++ ys) where
  found {t v} hv := by
    obtain ⟨u, hu, hv⟩ := bind_eq_ok_iff.mp hv
    rw [hg.found hv, hf.found hu, lastTables, lastTables, lastTables, List.foldl_append]
  on_iff {t v} hv n line hline := by
    obtain ⟨u, hu, hv⟩ := bind_eq_ok_iff.mp hv
    rw [hg.on_iff hv hline, hf.on_iff hu hline, hf.found hu, told_append, or_assoc]

/-- Going through a list has the looks of each member, in order. -/
theorem foldlM {step : Tally → α → Except Fault Tally} {looks : α → List Look}
    {zs : List α} (h : ∀ z ∈ zs, Tells known (step · z) (looks z)) :
    Tells known (zs.foldlM step ·) (zs.flatMap looks) := by
  induction zs with
  | nil => exact of_notes .refl
  | cons z rest ih =>
    rw [List.forall_mem_cons] at h
    simp only [List.foldlM_cons, List.flatMap_cons]
    exact h.1.bind (ih h.2)

/-- Going through a list whose members are one look each. -/
theorem foldlM_map {step : Tally → α → Except Fault Tally} {look : α → Look} {zs : List α}
    (h : ∀ z ∈ zs, Tells known (step · z) [look z]) :
    Tells known (zs.foldlM step ·) (zs.map look) := by
  rw [List.map_eq_flatMap]
  exact foldlM h

/-- Going through a list whose members have no looks. -/
theorem foldlM_nil {step : Tally → α → Except Fault Tally} {zs : List α}
    (h : ∀ z ∈ zs, Tells known (step · z) []) : Tells known (zs.foldlM step ·) [] := by
  have := foldlM h
  rwa [List.flatMap_eq_nil_iff.mpr fun _ _ => rfl] at this

/-- Notes on other things before a part. -/
theorem after_mute (hk : ∀ t, Mute t (k t)) (hf : Tells known f xs) :
    Tells known (fun t => f (k t)) xs :=
  (of_notes hk).bind hf

/-- Notes on other things after a part. -/
theorem before_mute (hk : ∀ t, Mute t (k t)) (hf : Tells known f xs) :
    Tells known (fun t => f t >>= fun u => pure (k u)) xs := by
  have := hf.bind (of_notes hk)
  rwa [List.append_nil] at this

end Tells

/-! ## Single calculations -/

/-- What a calculation that may run a query leaves behind and notes, before its names are looked at. -/
theorem query_spec {t u : Tally} {q text : String}
    (h : (if runsQuery q then t.noteQuery known q text else pure t) = .ok u) :
    (u.found = if runsQuery q then (queryTables known q).toOption else t.found) ∧
      ∀ n line, line ∈ u.on n ↔
        line ∈ t.on n ∨ runsQuery q = true ∧ n ∈ u.found.getD [] ∧ line = text := by
  split at h
  · rename_i hq
    obtain ⟨hfound, hon⟩ := Tally.noteQuery_spec h
    simpa [hq] using ⟨hfound, hon⟩
  · rename_i hq
    obtain rfl := pure_eq_ok_iff.mp h
    simp [hq]

theorem noteCalculation_spec {t u : Tally} {label q : String}
    (h : t.noteCalculation known label q = .ok u) :
    (u.found = if runsQuery q then (queryTables known q).toOption else t.found) ∧
      ∀ n line, line ∈ u.on n ↔ line ∈ t.on n ∨
        (runsQuery q = true ∧ n ∈ u.found.getD [] ∧ line = label ++ " (ExecuteSQL)") ∨
        (n ∈ occurring known q ∧ n ∉ u.found.getD [] ∧ line = label) := by
  rw [noteCalculation_eq] at h
  obtain ⟨v, hv, hu⟩ := bind_eq_ok_iff.mp h
  obtain ⟨hvfound, hvon⟩ := query_spec hv
  obtain ⟨hufound, huon⟩ := Tally.noteOccurring_spec hu
  rw [← hufound] at hvfound hvon huon
  exact ⟨hvfound, fun n line => by rw [huon, hvon, or_assoc]⟩

theorem noteCalculation_tells (label q : String) :
    Tells known (fun t => t.noteCalculation known label q) [⟨label, .control, q⟩] :=
  .of_gives (fun hu => (noteCalculation_spec hu).1) fun hu => (noteCalculation_spec hu).2

theorem noteHide_tells (label q : String) :
    Tells known (fun t => t.noteHide known label q) [⟨label, .hide, q⟩] := by
  have hready : ∀ t : Tally, (if runsQuery q then { t with ready := true } else t).found = t.found ∧
      ∀ n, (if runsQuery q then { t with ready := true } else t).on n = t.on n := fun t => by
    split <;> exact ⟨rfl, fun _ => rfl⟩
  refine .of_gives (fun {t u} hu => ?_) fun {t u} hu n line => ?_
  · rw [(noteCalculation_spec hu).1, (hready t).1]
    rfl
  · rw [(noteCalculation_spec hu).2, (hready t).2]
    rfl

theorem noteFree_tells (label q : String) :
    Tells known (fun t => t.noteFree known label q) [⟨label, .other, q⟩] := by
  have hspec : ∀ {t u : Tally}, t.noteFree known label q = .ok u →
      u.found = Look.leaves known t.found ⟨label, .other, q⟩ ∧ ∀ n line, line ∈ u.on n ↔
        line ∈ t.on n ∨ Look.Gives known ⟨label, .other, q⟩ (u.found.getD []) n line := by
    intro t u hu
    obtain ⟨v, hv, hu⟩ := bind_eq_ok_iff.mp hu
    obtain ⟨hvfound, hvon⟩ := query_spec hv
    obtain rfl := pure_eq_ok_iff.mp hu
    have hkeeps := Keeps.foldl (fun t n => Tally.noteNew_keeps t n label) (occurring known q) v
    rw [hkeeps.found]
    refine ⟨hvfound, fun n line => ?_⟩
    rw [Tally.mem_on_foldl (fun name => n = name ∧ line = label) fun _ _ => Tally.mem_on_noteNew,
      hvon, or_assoc, Look.Gives]
    simp
  exact .of_gives (fun hu => (hspec hu).1) fun hu => (hspec hu).2

theorem noteStepQuery_tells (text : String) (hq : runsQuery q = true) :
    Tells known (fun t => t.noteStepQuery known text q) [⟨text, .step, q⟩] := by
  refine .of_gives (fun hu => ?_) fun hu => (Tally.noteQuery_spec hu).2
  rw [(Tally.noteQuery_spec hu).1, Look.leaves, if_pos hq]

/-! ## Objects, layouts and scripts -/

theorem noteOther_tells (suffix : String) (c : Site) :
    Tells known (fun t => t.noteOther known suffix c)
      ((otherEvents c).map (⟨c.parentTag?.getD "Calculation" ++ suffix, ·⟩)) := by
  simp only [noteOther_eq, otherEvents]
  split
  · exact .of_notes .refl
  · rw [List.map_map]
    exact .foldlM_map fun q _ => noteFree_tells _ q

theorem noteObject_tells (layout : String) (object : Site) :
    Tells known (fun t => t.noteObject known layout object)
      (controlLooks layout object ++ otherLooks layout object) := by
  simp only [noteObject_eq]
  rw [controlLooks, List.append_assoc, List.append_assoc]
  refine (Tells.foldlM_map fun q _ => noteHide_tells _ q).bind ?_
  refine (Tells.foldlM_map fun q _ => noteCalculation_tells _ q).bind ?_
  refine (Tells.foldlM_map fun q _ => noteCalculation_tells _ q).bind ?_
  refine Tells.after_mute (fun t => ?_) (.foldlM fun c _ => noteOther_tells _ c)
  exact Mute.foldl (fun t q => noteAll_mute (opensWith_append (by decide) _) t _) _ t

/-- Notes at a place on a layout are notes on other things. -/
theorem placed_mute {t u : Tally} {object : Site} {f : String → Tally}
    (hf : ∀ place, Mute t (f place)) (h : (placeOf? object >>= fun place => match place with
      | some place => pure (f place)
      | none => pure t) = .ok u) : Mute t u := by
  obtain ⟨place, -, h⟩ := bind_eq_ok_iff.mp h
  cases place with
  | none => exact (Mute.refl t).of_pure h
  | some place => exact (hf place).of_pure h

theorem noteField_tells (layout : String) (object : Site) :
    Tells known (fun t => t.noteField layout object) [] := by
  refine .of_mute fun {t u} hu => ?_
  rw [Tally.noteField] at hu
  split at hu
  · exact (Mute.refl t).of_pure hu
  · refine placed_mute (fun place => ?_) hu
    exact note_mute (opensWith_append (opensWith_append₂ (by decide) _ _) _) t _

theorem notePortalTable_tells (layout : String) (portal : Site) :
    Tells known (fun t => t.notePortalTable layout portal) [] := by
  refine .of_mute fun {t u} hu => ?_
  rw [Tally.notePortalTable] at hu
  split at hu
  · exact (Mute.refl t).of_pure hu
  · refine placed_mute (fun place => ?_) hu
    exact note_mute (opensWith_append (opensWith_append₂ (by decide) _ _) _) t _

theorem notePortalFilter_tells (layout : String) (portal : Site) :
    Tells known (fun t => t.notePortalFilter known layout portal) [] := by
  refine .of_mute fun {t u} hu => ?_
  rw [Tally.notePortalFilter] at hu
  split at hu
  · exact (Mute.refl t).of_pure hu
  · split at hu
    · exact (Mute.refl t).of_pure hu
    · refine placed_mute (fun place => ?_) hu
      exact noteAll_mute (opensWith_append (opensWith_append₂ (by decide) _ _) _) t _

theorem noteLayout_tells (layout : Site) :
    Tells known (fun t => t.noteLayout known layout) ((layout.all "Object").flatMap fun object =>
      controlLooks (layout.node.attrD "name" "Unknown Layout") object ++
        otherLooks (layout.node.attrD "name" "Unknown Layout") object) := by
  have hfields : Tells known ((layout.all "FieldObj").foldlM
      (Tally.noteField (layout.node.attrD "name" "Unknown Layout")) ·) [] :=
    .foldlM_nil fun field _ => noteField_tells _ field
  have hportals : Tells known ((layout.all "PortalObj").foldlM
      (Tally.notePortal known (layout.node.attrD "name" "Unknown Layout")) ·) [] :=
    .foldlM_nil fun portal _ =>
      (notePortalTable_tells _ portal).bind (notePortalFilter_tells _ portal)
  have hobjects : Tells known ((layout.all "Object").foldlM
      (Tally.noteObject known (layout.node.attrD "name" "Unknown Layout")) ·) _ :=
    .foldlM fun object _ => noteObject_tells _ object
  refine (hfields.bind (hportals.bind hobjects)).after_mute fun t => ?_
  exact (noteGiven_mute (opensWith_append₂ (by decide) _ _) t _).trans
    (noteGiven_mute (opensWith_append₂ (by decide) _ _) _ _)

theorem opensWith_stepLabel (script : String) (step : Site) :
    opensWith otherOpenings (stepLabel script step) = true :=
  opensWith_append₂ (opensWith_append₂ (by decide) _ _) _ _

theorem noteStepQueries_tells (text : String) (step : Site) :
    Tells known (fun t => t.noteStepQueries known text step)
      ((step.all "Calculation").flatMap fun c =>
        (c.node.text.filter runsQuery).toList.map fun q => ⟨text, .step, q⟩) := by
  simp only [noteStepQueries_eq]
  refine .foldlM fun c _ => .foldlM_map fun q hq => noteStepQuery_tells _ ?_
  exact (Option.filter_eq_some_iff.mp (Option.mem_toList.mp hq)).2

theorem noteAction_tells (script : String) (step : Site) :
    Tells known (fun t => t.noteAction known (stepLabel script step) step)
      (stepLooks script step) := by
  have hlabel := opensWith_stepLabel script step
  simp only [Tally.noteAction, stepLooks, stepEvents]
  by_cases hset : stepName step = "Set Field"
  · simp only [hset]
    exact .of_notes fun t => noteGiven_mute (opensWith_append hlabel _) t _
  by_cases hname : stepName step = "Set Field By Name"
  · simp only [hname]
    exact .of_notes fun t => noteAll_mute (opensWith_append hlabel _) t _
  simp only [beq_iff_eq, hset, hname, if_false]
  split
  · simp only [List.map_flatMap, List.map_map]
    exact noteStepQueries_tells _ step
  · exact .of_notes .refl

theorem noteStep_tells (script : String) (step : Site) :
    Tells known (fun t => t.noteStep known script step) (stepLooks script step) :=
  (noteAction_tells script step).before_mute fun t =>
    (noteTarget_mute (opensWith_stepLabel script step) step t).trans
      (noteFields_mute (opensWith_append (opensWith_stepLabel script step) _) _ step)

/-- The notes on a document. -/
theorem tally_tells (root : Site) :
    Tells known (fun t => (root.all "Script").foldlM (Tally.noteScript known) t >>= fun t =>
      (root.all "Layout").foldlM (Tally.noteLayout known) t) (looks root) := by
  have hscripts : Tells known ((root.all "Script").foldlM (Tally.noteScript known) ·)
      ((root.all "Script").flatMap fun s =>
        (s.all "Step").flatMap (stepLooks (s.node.attrD "name" "Unknown Script"))) :=
    .foldlM fun s _ => .foldlM fun step _ => noteStep_tells _ step
  exact hscripts.bind (.foldlM fun l _ => noteLayout_tells l)

/-! ## Calculations that control objects -/

/-- Whether a calculation controls an object. -/
def Place.controls : Place → Bool
  | .hide | .control => true
  | .step | .other => false

/-- How the lines begin that are noted for calculations that control objects. -/
def controlOpenings : List String := ["Hide Condition", "Tooltip", "Conditional Format"]

theorem opensWith_label {root : Site} (h : x ∈ looks root)
    (hx : x.event.place.controls = true) : opensWith controlOpenings x.label = true := by
  rcases List.mem_append.mp h with h | h
  · obtain ⟨s, -, h⟩ := List.mem_flatMap.mp h
    obtain ⟨step, -, h⟩ := List.mem_flatMap.mp h
    obtain ⟨e, he, rfl⟩ := List.mem_map.mp h
    rw [stepEvents] at he
    split at he
    · obtain ⟨c, -, he⟩ := List.mem_flatMap.mp he
      obtain ⟨q, -, rfl⟩ := List.mem_map.mp he
      cases hx
    · cases he
  · obtain ⟨l, -, h⟩ := List.mem_flatMap.mp h
    obtain ⟨object, -, h⟩ := List.mem_flatMap.mp h
    rcases List.mem_append.mp h with h | h
    · simp only [controlLooks, List.mem_append, List.mem_map] at h
      obtain ⟨q, -, rfl⟩ | ⟨q, -, rfl⟩ | ⟨q, -, rfl⟩ := h
      all_goals exact opensWith_append (by decide) _
    · obtain ⟨c, -, h⟩ := List.mem_flatMap.mp h
      obtain ⟨e, he, rfl⟩ := List.mem_map.mp h
      rw [otherEvents] at he
      split at he
      · cases he
      · obtain ⟨q, -, rfl⟩ := List.mem_map.mp he
        cases hx

theorem not_opensWith_other {line : String} (h : opensWith controlOpenings line = true) :
    opensWith otherOpenings line = false := by
  have hclash : ∀ part ∈ otherOpenings, ∀ opening ∈ controlOpenings,
      beginsWith part opening = false ∧ beginsWith opening part = false := by decide
  refine List.any_eq_false.mpr fun part hpart => ?_
  rw [beginsWith_eq_false_of_opensWith (hclash part hpart) h]
  exact Bool.false_ne_true

theorem Look.gives_iff_of_controls (hx : x.event.place.controls = true)
    {tables : List String} {n line : String} :
    x.Gives known tables n line ↔
      (runsQuery x.event.text = true ∧ n ∈ tables ∧ line = x.label ++ " (ExecuteSQL)") ∨
        (n ∈ occurring known x.event.text ∧ n ∉ tables ∧ line = x.label) := by
  rw [Look.Gives]
  cases hplace : x.event.place with
  | hide => exact .rfl
  | control => exact .rfl
  | step =>
    rw [hplace] at hx
    cases hx
  | other =>
    rw [hplace] at hx
    cases hx

/-- A calculation with a known name gives one of its lines to the notes on the name exactly if it runs a
query, or the last query before it does not read the name. -/
theorem gives_line_iff {xs : List Look} {i : Nat} (hi : xs[i]? = some x)
    (hx : x.event.place.controls = true) {n : String} (hn : n ∈ known)
    (hoccurs : has n x.event.text = true) :
    (∃ line ∈ [x.label, x.label ++ " (ExecuteSQL)"],
      x.Gives known (tablesAfter known (xs.take (i + 1))) n line) ↔
      runsQuery x.event.text = true ∨ ¬ ReadLast known n (xs.take i) := by
  have hoccurring : n ∈ occurring known x.event.text := List.mem_filter.mpr ⟨hn, hoccurs⟩
  have hupto : xs.take (i + 1) = xs.take i ++ [x] := by rw [List.take_add_one, hi]; rfl
  rw [hupto, ← mem_tablesAfter_iff]
  cases hq : runsQuery x.event.text with
  | true =>
    refine iff_of_true ?_ (.inl rfl)
    -- the name is noted for the query or for the rest of the calculation
    by_cases hread : n ∈ tablesAfter known (xs.take i ++ [x])
    · exact ⟨_, by simp, (Look.gives_iff_of_controls hx).mpr (.inl ⟨hq, hread, rfl⟩)⟩
    · exact ⟨_, by simp, (Look.gives_iff_of_controls hx).mpr (.inr ⟨hoccurring, hread, rfl⟩)⟩
  | false =>
    have htables : tablesAfter known (xs.take i ++ [x]) = tablesAfter known (xs.take i) := by
      rw [tablesAfter_append, hq]
      rfl
    rw [htables]
    constructor
    · rintro ⟨line, -, hgives⟩
      obtain ⟨hquery, -⟩ | ⟨-, hread, -⟩ := (Look.gives_iff_of_controls hx).mp hgives
      · rw [hq] at hquery
        cases hquery
      · exact .inr hread
    · rintro (hquery | hread)
      · cases hquery
      · exact ⟨_, by simp, (Look.gives_iff_of_controls hx).mpr (.inr ⟨hoccurring, hread, rfl⟩)⟩

/-! ## The report -/

theorem exists_row_of_names {raw : String} {given : Option Given} {register : Register String}
    {root : Site} (hprepare : prepare raw given = .ok (register, root))
    (hlog : (audit raw given).log = []) {n : String} (hn : n ∈ register.names) :
    ∃ t, Tally.of register.names root = .ok t ∧ ∃ row ∈ (audit raw given).rows,
      row.lookup "Table Occurrence" = some (.text n) ∧
        row.lookup "Usage Locations" = some (.text (lines (distinct (t.on n)))) := by
  rw [audit_of_prepare hprepare] at hlog ⊢
  cases hrows : rowsOf register root raw.toList with
  | error fault =>
    rw [hrows] at hlog
    cases hlog
  | ok rows =>
    obtain ⟨t, ht, hmade⟩ := bind_eq_ok_iff.mp hrows
    obtain ⟨⟨_, base⟩, hentry, rfl⟩ := List.mem_map.mp hn
    rw [← pure_eq_ok_iff.mp hmade]
    refine ⟨t, ht, Row.cells _, List.mem_map_of_mem ((arranged_perm _).mem_iff.mpr
      (List.mem_map_of_mem hentry)), rfl, rfl⟩

/-- **Which calculations are noted depends on the last query.** In a report that is completed, the row of
a table occurrence has a line for a calculation that controls an object and has the name of the
occurrence in it, with or without the mark of a query, exactly if the calculation runs a query itself,
or the last query that is looked at before it does not read the occurrence, or another calculation
gives the same line. -/
theorem control_line_noted_iff {raw : String} {given : Option Given} {register : Register String}
    {root : Site} (hprepare : prepare raw given = .ok (register, root))
    (hlog : (audit raw given).log = []) {n : String} (hn : n ∈ register.names) :
    ∃ row ∈ (audit raw given).rows, ∃ uses,
      row.lookup "Table Occurrence" = some (.text n) ∧
      row.lookup "Usage Locations" = some (.text (lines uses)) ∧
      ∀ (i : Nat) (x : Look), (looks root)[i]? = some x → x.event.place.controls = true →
        has n x.event.text = true →
        ((∃ line ∈ [x.label, x.label ++ " (ExecuteSQL)"], line ∈ uses) ↔
          runsQuery x.event.text = true ∨
          ¬ ReadLast register.names n ((looks root).take i) ∨
          ∃ (j : Nat) (y : Look), j ≠ i ∧ (looks root)[j]? = some y ∧
            ∃ line ∈ [x.label, x.label ++ " (ExecuteSQL)"],
              y.Gives register.names (tablesAfter register.names ((looks root).take (j + 1))) n
                line) := by
  obtain ⟨t, ht, row, hrow, hname, huses⟩ := exists_row_of_names hprepare hlog hn
  refine ⟨row, hrow, _, hname, huses, fun i x hi hx hoccurs => ?_⟩
  have hlabel := opensWith_label (List.mem_of_getElem? hi) hx
  have hnoted : (∃ line ∈ [x.label, x.label ++ " (ExecuteSQL)"], line ∈ distinct (t.on n)) ↔
      ∃ line ∈ [x.label, x.label ++ " (ExecuteSQL)"], ∃ (j : Nat) (y : Look),
        (looks root)[j]? = some y ∧
        y.Gives register.names (tablesAfter register.names ((looks root).take (j + 1))) n line := by
    refine exists_congr fun line => and_congr_right fun hline => ?_
    have hopens : opensWith controlOpenings line = true := by
      simp only [List.mem_cons, List.not_mem_nil, or_false] at hline
      obtain rfl | rfl := hline
      · exact hlabel
      · exact opensWith_append hlabel _
    rw [mem_distinct, (tally_tells root).on_iff ht (not_opensWith_other hopens), told_iff_exists]
    exact or_iff_right List.not_mem_nil
  rw [hnoted, ← or_assoc, ← gives_line_iff hi hx hn hoccurs]
  constructor
  · rintro ⟨line, hline, j, y, hj, hgives⟩
    by_cases hji : j = i
    · subst hji
      obtain rfl : x = y := Option.some.inj (hi.symm.trans hj)
      exact .inl ⟨line, hline, hgives⟩
    · exact .inr ⟨j, y, hji, hj, line, hline, hgives⟩
  · rintro (⟨line, hline, hgives⟩ | ⟨j, y, -, hj, line, hline, hgives⟩)
    · exact ⟨line, hline, i, x, hi, hgives⟩
    · exact ⟨line, hline, j, y, hj, hgives⟩

/-- The line that is noted for the condition that hides the object of `busyReport`. -/
def busyHideLine : String := "Hide Condition on Layout 'L' - Unknown"

/-- The condition that hides the object of `busyReport` has the name of an occurrence in it, but no line
is noted for it, since a query of a script reads that occurrence. -/
theorem busyReport_hide_condition_lost :
    (audit "" (some ⟨busyOccurrences, some busyReport⟩)).log = [] ∧
    (looks (Site.root busyReport))[1]? = some ⟨busyHideLine, .hide, "A::x"⟩ ∧
    has "A" "A::x" = true ∧
    ∃ row ∈ (audit "" (some ⟨busyOccurrences, some busyReport⟩)).rows, ∃ uses,
      row.lookup "Table Occurrence" = some (.text "A") ∧
      row.lookup "Usage Locations" = some (.text (lines uses)) ∧
      ¬ ∃ line ∈ [busyHideLine, busyHideLine ++ " (ExecuteSQL)"], line ∈ uses := by
  have hlog : (audit "" (some ⟨busyOccurrences, some busyReport⟩)).log = [] := by decide +kernel
  have hlook : (looks (Site.root busyReport))[1]? = some ⟨busyHideLine, .hide, "A::x"⟩ := rfl
  have hread : ReadLast busyOccurrences.names "A" ((looks (Site.root busyReport)).take 1) := by
    decide +kernel
  have hothers : ∀ j < 5, j ≠ 1 → ∀ y ∈ (looks (Site.root busyReport))[j]?,
      ∀ line ∈ [busyHideLine, busyHideLine ++ " (ExecuteSQL)"],
        ¬ y.Gives busyOccurrences.names
          (tablesAfter busyOccurrences.names ((looks (Site.root busyReport)).take (j + 1))) "A"
          line := by
    decide +kernel
  obtain ⟨row, hrow, uses, hname, huses, hnoted⟩ :=
    control_line_noted_iff (n := "A") (rfl : prepare "" (some ⟨busyOccurrences, some busyReport⟩) =
      .ok (busyOccurrences, Site.root busyReport)) hlog (by decide)
  refine ⟨hlog, hlook, by decide, row, hrow, uses, hname, huses, ?_⟩
  rw [hnoted 1 _ hlook rfl (by decide)]
  rintro (hquery | hunread | ⟨j, y, hj, hy, line, hline, hgives⟩)
  · exact absurd hquery (by decide)
  · exact hunread hread
  · have hlength : (looks (Site.root busyReport)).length = 5 := by decide
    have hlt : j < 5 := hlength ▸ (List.getElem?_eq_some_iff.mp hy).1
    exact hothers j hlt hj y hy line hline hgives

end DesignAudit.Occurrence
