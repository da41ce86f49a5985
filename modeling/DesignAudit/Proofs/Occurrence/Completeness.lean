import DesignAudit.Occurrence.Audit
import DesignAudit.Proofs.Markup.Reader
import DesignAudit.Proofs.Occurrence.Event
import DesignAudit.Proofs.Register

/-!
# When the audit of table occurrences is complete

Each part of the audit is tied to its events: single calculations first, then steps, scripts, objects
and layouts. Places on a layout raise no fault as long as the distances are finite numbers
(`FiniteBounds`).

`audit_complete_iff` says when the report has a row for each table occurrence: exactly if no query
reads a table with a blank name and nothing is asked for before it is set up. Otherwise the report is
lost as a whole.
-/

namespace DesignAudit.Occurrence

open Markup Text Traversal Number

variable {known : List String}

/-! ## Queries -/

theorem exists_tableName_eq_ok_iff {matched : List Char} :
    (∃ name, tableName matched = .ok name) ↔ ¬ IsBlankName matched := by
  rw [tableName, IsBlankName]
  split
  · rename_i hempty
    simp [beq_iff_eq.mp hempty]
  · rename_i hne
    rw [beq_iff_eq] at hne
    split
    · rename_i w hw
      simp [hw]
    · rename_i hw
      simp [hw, hne]

variable {register : Register String} {portal root : Site} {q text : String} {t u : Tally}

theorem exists_queryTables_eq_ok_iff (known : List String) :
    (∃ tables, queryTables known q = .ok tables) ↔
      ∀ matched ∈ tablePatterns.flatMap (·.findFirst q.toList), ¬ IsBlankName matched := by
  simp only [← exists_tableName_eq_ok_iff, ← exists_mapM_eq_ok_iff]
  constructor
  · rintro ⟨tables, h⟩
    obtain ⟨names, hnames, -⟩ := bind_eq_ok_iff.mp h
    exact ⟨names, hnames⟩
  · rintro ⟨names, hnames⟩
    exact ⟨_, bind_eq_ok_iff.mpr ⟨names, hnames, rfl⟩⟩

/-- A query is noted exactly if the patterns are set up and no table has a blank name; there are
tables of last queries then. -/
theorem noteQuery_eq_ok_iff :
    t.noteQuery known q text = .ok u ↔
      t.ready = true ∧ ∃ tables, queryTables known q = .ok tables ∧
        u = { t with found := some tables }.noteAll tables text := by
  rw [Tally.noteQuery]
  cases hready : t.ready with
  | false => simp
  | true =>
    simp only [Bool.not_true, Bool.false_eq_true, if_false, true_and]
    constructor
    · intro h
      obtain ⟨tables, htables, h⟩ := bind_eq_ok_iff.mp h
      exact ⟨tables, htables, (pure_eq_ok_iff.mp h).symm⟩
    · rintro ⟨tables, htables, rfl⟩
      exact bind_eq_ok_iff.mpr ⟨tables, htables, rfl⟩

theorem mentions_iff : Mentions known text ↔ occurring known text ≠ [] := by
  rw [Mentions, occurring, Ne, List.filter_eq_nil_iff]
  push Not
  rfl

/-- Known names in a calculation are noted exactly if there are tables of last queries, or no name
occurs. -/
theorem exists_noteOccurring_eq_ok_iff :
    (∃ u, t.noteOccurring known q text = .ok u) ↔
      (Mentions known q → t.found.isSome = true) := by
  rw [mentions_iff, Tally.noteOccurring]
  cases hnames : occurring known q with
  | nil => simp
  | cons name names =>
    cases hfound : t.found with
    | none => simp
    | some found => simp

theorem keeps_of_noteOccurring (h : t.noteOccurring known q text = .ok u) : Keeps t u := by
  rw [Tally.noteOccurring] at h
  split at h
  · cases h
    exact .refl t
  · cases h
  · cases h
    exact t.noteAll_keeps _ _

/-! ## Single calculations -/

theorem orderly_singleton {opened : Bool} {e : Event} :
    Orderly known opened [e] ↔ (e.Needs known → opened = true) ∧ e.Readable := by
  simp [Orderly]

theorem noteCalculation_eq (t : Tally) (text q : String) :
    t.noteCalculation known text q =
      (if runsQuery q then t.noteQuery known q (text ++ " (ExecuteSQL)") else pure t) >>=
        fun t => t.noteOccurring known q text := by
  rw [Tally.noteCalculation]
  split <;> rfl

/-- What a calculation that controls an object needs: with a query the patterns and readable tables,
without one the tables of the last queries if a known name occurs. -/
theorem exists_noteCalculation_eq_ok_iff :
    (∃ u, t.noteCalculation known text q = .ok u) ↔
      if runsQuery q = true then
        t.ready = true ∧
          ∀ matched ∈ tablePatterns.flatMap (·.findFirst q.toList), ¬ IsBlankName matched
      else Mentions known q → t.found.isSome = true := by
  rw [noteCalculation_eq]
  by_cases hq : runsQuery q = true
  · simp only [hq, if_true, ← exists_queryTables_eq_ok_iff known]
    constructor
    · rintro ⟨u, h⟩
      obtain ⟨v, hv, -⟩ := bind_eq_ok_iff.mp h
      obtain ⟨hready, tables, htables, -⟩ := noteQuery_eq_ok_iff.mp hv
      exact ⟨hready, tables, htables⟩
    · rintro ⟨hready, tables, htables⟩
      -- after the query there are tables of last queries, so that the names can be compared
      let v := { t with found := some tables }.noteAll tables (text ++ " (ExecuteSQL)")
      have hv : t.noteQuery known q (text ++ " (ExecuteSQL)") = .ok v :=
        noteQuery_eq_ok_iff.mpr ⟨hready, tables, htables, rfl⟩
      have hfound : v.found.isSome = true := by
        rw [(Tally.noteAll_keeps _ tables _).found]
        rfl
      have hu : ∃ u, v.noteOccurring known q text = .ok u :=
        exists_noteOccurring_eq_ok_iff.mpr fun _ => hfound
      obtain ⟨u, hu⟩ := hu
      exact ⟨u, bind_eq_ok_iff.mpr ⟨v, hv, hu⟩⟩
  · simp only [hq]
    exact exists_noteOccurring_eq_ok_iff

/-- A query leaves tables of last queries behind; the patterns stay as they are. -/
theorem leaves_of_noteQuery (h : t.noteQuery known q text = .ok u) :
    t.ready = true ∧ u.ready = true ∧ u.found.isSome = true := by
  obtain ⟨hready, tables, -, rfl⟩ := noteQuery_eq_ok_iff.mp h
  have hkeeps := Tally.noteAll_keeps { t with found := some tables } tables text
  exact ⟨hready, hkeeps.ready.trans hready, by rw [hkeeps.found]; rfl⟩

theorem leaves_of_noteCalculation (h : t.noteCalculation known text q = .ok u) (ht : t.Consistent) :
    u.Consistent ∧ u.ready = t.ready := by
  rw [noteCalculation_eq] at h
  obtain ⟨v, hv, hu⟩ := bind_eq_ok_iff.mp h
  have hkeeps := keeps_of_noteOccurring hu
  split at hv
  · obtain ⟨hready, hvready, hvfound⟩ := leaves_of_noteQuery hv
    exact ⟨hkeeps.consistent (hvready.trans hvfound.symm),
      hkeeps.ready.trans (hvready.trans hready.symm)⟩
  · obtain rfl := pure_eq_ok_iff.mp hv
    exact ⟨hkeeps.consistent ht, hkeeps.ready⟩

theorem noteCalculation_follows (text q : String) :
    Follows known (fun t => t.noteCalculation known text q) [⟨.control, q⟩] where
  succeeds t ht := by
    rw [exists_noteCalculation_eq_ok_iff, orderly_singleton, Event.Needs, Event.Readable, ← ht]
    by_cases hq : runsQuery q = true
    · simp [hq]
    · simp [hq]
  leaves t u ht h := by
    obtain ⟨hu, hready⟩ := leaves_of_noteCalculation h ht
    exact ⟨hu, by simp [hready, Event.opens]⟩

/-- Notes the tables of a condition that hides an object, which sets up the patterns itself. -/
def Tally.noteHide (known : List String) (text : String) (t : Tally) (q : String) :
    Except Fault Tally :=
  (if runsQuery q then { t with ready := true } else t).noteCalculation known text q

theorem noteHide_follows (text q : String) :
    Follows known (fun t => t.noteHide known text q) [⟨.hide, q⟩] where
  succeeds t ht := by
    rw [Tally.noteHide, exists_noteCalculation_eq_ok_iff, orderly_singleton, Event.Needs,
      Event.Readable]
    by_cases hq : runsQuery q = true
    · simp [hq]
    · have hfound : t.found.isSome = t.ready := ht.symm
      simp [hq, hfound]
  leaves t u ht h := by
    by_cases hq : runsQuery q = true
    · -- the tally is not consistent in between, but the query makes it so again
      rw [Tally.noteHide, if_pos hq, noteCalculation_eq] at h
      obtain ⟨v, hv, hu⟩ := bind_eq_ok_iff.mp h
      rw [if_pos hq] at hv
      obtain ⟨-, hvready, hvfound⟩ := leaves_of_noteQuery hv
      have hkeeps := keeps_of_noteOccurring hu
      refine ⟨hkeeps.consistent (hvready.trans hvfound.symm), ?_⟩
      simp [hkeeps.ready, hvready, Event.opens, hq]
    · rw [Tally.noteHide, if_neg hq] at h
      obtain ⟨hu, hready⟩ := leaves_of_noteCalculation h ht
      exact ⟨hu, by simp [hready, Event.opens, hq]⟩

/-- Notes the tables of a calculation that controls nothing. -/
def Tally.noteFree (known : List String) (text : String) (t : Tally) (q : String) :
    Except Fault Tally :=
  (if runsQuery q then t.noteQuery known q (text ++ " (ExecuteSQL)") else pure t) >>= fun t =>
    pure ((occurring known q).foldl (fun t n => t.noteNew n text) t)

theorem noteFree_follows (text q : String) :
    Follows known (fun t => t.noteFree known text q) [⟨.other, q⟩] where
  succeeds t ht := by
    rw [orderly_singleton, Event.Needs, Event.Readable, Tally.noteFree]
    by_cases hq : runsQuery q = true
    · simp only [hq, if_true, true_imp_iff, ← exists_queryTables_eq_ok_iff known]
      constructor
      · rintro ⟨u, h⟩
        obtain ⟨v, hv, -⟩ := bind_eq_ok_iff.mp h
        obtain ⟨hready, tables, htables, -⟩ := noteQuery_eq_ok_iff.mp hv
        exact ⟨hready, tables, htables⟩
      · rintro ⟨hready, tables, htables⟩
        exact ⟨_, bind_eq_ok_iff.mpr
          ⟨_, noteQuery_eq_ok_iff.mpr ⟨hready, tables, htables, rfl⟩, rfl⟩⟩
    · rw [if_neg hq]
      exact ⟨fun _ => ⟨fun h => absurd h hq, fun h => absurd h hq⟩, fun _ => ⟨_, rfl⟩⟩
  leaves t u ht h := by
    obtain ⟨v, hv, h⟩ := bind_eq_ok_iff.mp h
    obtain rfl := pure_eq_ok_iff.mp h
    have hkeeps := Keeps.foldl (fun t n => Tally.noteNew_keeps t n text) (occurring known q) v
    split at hv
    · obtain ⟨hready, hvready, hvfound⟩ := leaves_of_noteQuery hv
      refine ⟨hkeeps.consistent (hvready.trans hvfound.symm), ?_⟩
      simp [hkeeps.ready, hvready, hready, Event.opens]
    · obtain rfl := pure_eq_ok_iff.mp hv
      exact ⟨hkeeps.consistent ht, by simp [hkeeps.ready, Event.opens]⟩

/-- Notes a query of a step, which sets up the patterns itself. -/
def Tally.noteStepQuery (known : List String) (text : String) (t : Tally) (q : String) :
    Except Fault Tally :=
  { t with ready := true }.noteQuery known q text

theorem noteStepQuery_follows (text : String) (hq : runsQuery q = true) :
    Follows known (fun t => t.noteStepQuery known text q) [⟨.step, q⟩] where
  succeeds t ht := by
    rw [orderly_singleton, Event.Needs, Event.Readable, Tally.noteStepQuery]
    simp only [hq, true_imp_iff, false_imp_iff, true_and, ← exists_queryTables_eq_ok_iff known]
    constructor
    · rintro ⟨u, h⟩
      obtain ⟨-, tables, htables, -⟩ := noteQuery_eq_ok_iff.mp h
      exact ⟨tables, htables⟩
    · rintro ⟨tables, htables⟩
      exact ⟨_, noteQuery_eq_ok_iff.mpr ⟨rfl, tables, htables, rfl⟩⟩
  leaves t u ht h := by
    obtain ⟨-, hready, hfound⟩ := leaves_of_noteQuery h
    exact ⟨hready.trans hfound.symm, by simp [hready, Event.opens, hq]⟩

/-! ## Objects, layouts and scripts -/

/-- Going through an optional calculation. -/
theorem follows_toList {o : Option String} {place : Place}
    {step : Tally → String → Except Fault Tally}
    (h : ∀ q, Follows known (step · q) [⟨place, q⟩]) :
    Follows known (o.toList.foldlM step ·) (o.toList.map (⟨place, ·⟩)) := by
  rw [List.map_eq_flatMap]
  exact .foldlM fun q _ => h q

theorem noteOther_eq (t : Tally) (suffix : String) (c : Site) :
    t.noteOther known suffix c =
      if controlNames.contains (c.parentTag?.getD "Calculation") then pure t
      else c.node.written?.toList.foldlM
        (Tally.noteFree known (c.parentTag?.getD "Calculation" ++ suffix)) t := by
  rw [Tally.noteOther]
  split
  · rfl
  · cases c.node.written? with
    | none => rfl
    | some q =>
      simp only [Option.toList_some, List.foldlM_cons, List.foldlM_nil, bind_pure, Tally.noteFree]
      split <;> rfl

theorem noteOther_follows (suffix : String) (c : Site) :
    Follows known (fun t => t.noteOther known suffix c) (otherEvents c) := by
  simp only [noteOther_eq, otherEvents]
  split
  · exact .of_keeps fun t => ⟨t, rfl, .refl t⟩
  · exact follows_toList fun q => noteFree_follows _ q

theorem noteObject_eq (t : Tally) (layout : String) (object : Site) :
    t.noteObject known layout object =
      let suffix := objectSuffix layout object
      ((object.firstPath? "HideCondition" ["Calculation"]).bind (·.node.written?)).toList.foldlM
        (Tally.noteHide known ("Hide Condition" ++ suffix)) t >>= fun t =>
      ((object.firstPath? "Tooltip" ["Calculation"]).bind (·.node.written?)).toList.foldlM
        (Tally.noteCalculation known ("Tooltip" ++ suffix)) t >>= fun t =>
      ((object.allPath "ConditionalFormatting" ["Calculation"]).filterMap (·.node.written?)).foldlM
        (Tally.noteCalculation known ("Conditional Format" ++ suffix)) t >>= fun t =>
      pure (((object.firstPath? "PlaceholderText" ["Calculation"]).bind
        (·.node.written?)).toList.foldl (fun t q =>
          t.noteAll (occurring known q) ("Placeholder Text" ++ suffix)) t) >>= fun t =>
      (object.all "Calculation").foldlM (Tally.noteOther known suffix) t := by
  rw [Tally.noteObject]
  cases (object.firstPath? "HideCondition" ["Calculation"]).bind (·.node.written?) <;>
    cases (object.firstPath? "Tooltip" ["Calculation"]).bind (·.node.written?) <;>
    cases (object.firstPath? "PlaceholderText" ["Calculation"]).bind (·.node.written?) <;>
    simp [Tally.noteHide]

theorem noteObject_follows (layout : String) (object : Site) :
    Follows known (fun t => t.noteObject known layout object) (objectEvents object) := by
  simp only [noteObject_eq]
  rw [objectEvents, List.append_assoc, List.append_assoc]
  refine (follows_toList fun q => noteHide_follows _ q).bind ?_
  refine (follows_toList fun q => noteCalculation_follows _ q).bind ?_
  rw [List.map_eq_flatMap]
  refine (Follows.foldlM fun q _ => noteCalculation_follows _ q).bind ?_
  rw [← List.nil_append ((object.all "Calculation").flatMap otherEvents)]
  refine Follows.bind (.of_keeps fun t => ⟨_, rfl, ?_⟩) (.foldlM fun c _ => noteOther_follows _ c)
  exact Keeps.foldl (fun t q => t.noteAll_keeps _ _) _ t

/-- All distances of a document are finite numbers. -/
def FiniteBounds (root : Site) : Prop :=
  ∀ b ∈ root.all "Bounds", ∀ key ∈ ["top", "left"], ∀ value, b.node.attr? key = some value →
    ∃ negative m e, real? value = some (.finite negative m e)

theorem exists_wholeDistance_eq_ok {root b : Site} (h : FiniteBounds root)
    (hb : b ∈ root.all "Bounds") {key : String} (hkey : key ∈ ["top", "left"]) :
    ∃ d, wholeDistance (b.node.attrD key "0") = .ok d := by
  rw [Node.attrD]
  cases hvalue : b.node.attr? key with
  | none => exact ⟨0, by decide⟩
  | some value =>
    obtain ⟨negative, m, e, hreal⟩ := h b hb key hkey value hvalue
    exact ⟨_, by rw [Option.getD_some, wholeDistance, hreal]⟩

theorem exists_placeOf?_eq_ok {root object : Site} (h : FiniteBounds root)
    (hobject : object ∈ root.below) : ∃ place, placeOf? object = .ok place := by
  rw [placeOf?]
  cases hb : object.first? "Bounds" with
  | none => exact ⟨none, rfl⟩
  | some b =>
    obtain ⟨hbelow, htag⟩ := Site.mem_below_of_first? hb
    have hmem := Site.mem_all.mpr ⟨Site.below_trans hobject hbelow, htag⟩
    obtain ⟨top, htop⟩ := exists_wholeDistance_eq_ok h hmem (by decide : "top" ∈ ["top", "left"])
    obtain ⟨left, hleft⟩ := exists_wholeDistance_eq_ok h hmem (by decide : "left" ∈ ["top", "left"])
    exact ⟨_, bind_eq_ok_iff.mpr ⟨top, htop, bind_eq_ok_iff.mpr ⟨left, hleft, rfl⟩⟩⟩

theorem noteField_follows {root object : Site} (h : FiniteBounds root)
    (hobject : object ∈ root.below) (layout : String) :
    Follows known (fun t => t.noteField layout object) [] := by
  obtain ⟨place, hplace⟩ := exists_placeOf?_eq_ok h hobject
  refine .of_keeps fun t => ?_
  rw [Tally.noteField, hplace]
  cases (object.first? "Field").bind (·.node.named? "table") with
  | none => exact ⟨t, rfl, .refl t⟩
  | some table =>
    cases place with
    | none => exact ⟨t, rfl, .refl t⟩
    | some place => exact ⟨_, rfl, t.note_keeps _ _⟩

theorem notePortalTable_follows (h : FiniteBounds root)
    (hportal : portal ∈ root.below) (layout : String) :
    Follows known (fun t => t.notePortalTable layout portal) [] := by
  obtain ⟨place, hplace⟩ := exists_placeOf?_eq_ok h hportal
  refine .of_keeps fun t => ?_
  rw [Tally.notePortalTable, hplace]
  cases (portal.first? "TableAliasKey").bind (·.node.written?) with
  | none => exact ⟨t, rfl, .refl t⟩
  | some table =>
    cases place with
    | none => exact ⟨t, rfl, .refl t⟩
    | some place => exact ⟨_, rfl, t.note_keeps _ _⟩

theorem notePortalFilter_follows (h : FiniteBounds root)
    (hportal : portal ∈ root.below) (layout : String) :
    Follows known (fun t => t.notePortalFilter known layout portal) [] := by
  obtain ⟨place, hplace⟩ := exists_placeOf?_eq_ok h hportal
  refine .of_keeps fun t => ?_
  rw [Tally.notePortalFilter, hplace]
  cases (portal.first? "Calculation").bind (·.node.written?) with
  | none => exact ⟨t, rfl, .refl t⟩
  | some q =>
    dsimp only
    split
    · exact ⟨t, rfl, .refl t⟩
    · cases place with
      | none => exact ⟨t, rfl, .refl t⟩
      | some place => exact ⟨_, rfl, t.noteAll_keeps _ _⟩

/-- The table of a portal and its filter are noted one after the other, at the same place. -/
theorem notePortal_follows (h : FiniteBounds root)
    (hportal : portal ∈ root.below) (layout : String) :
    Follows known (fun t => t.notePortal known layout portal) [] :=
  (notePortalTable_follows h hportal layout).bind (notePortalFilter_follows h hportal layout)

theorem noteLayout_follows {root layout : Site} (h : FiniteBounds root)
    (hlayout : layout ∈ root.below) :
    Follows known (fun t => t.noteLayout known layout)
      ((layout.all "Object").flatMap objectEvents) := by
  have hbelow : ∀ {tag : String}, ∀ x ∈ layout.all tag, x ∈ root.below := fun x hx =>
    Site.below_trans hlayout (Site.mem_all.mp hx).1
  have hobjects : Follows known ((layout.all "Object").foldlM
      (Tally.noteObject known (layout.node.attrD "name" "Unknown Layout")) ·) _ :=
    .foldlM fun object _ => noteObject_follows _ object
  have hportals : Follows known ((layout.all "PortalObj").foldlM
      (Tally.notePortal known (layout.node.attrD "name" "Unknown Layout")) ·) [] :=
    .foldlM_nil fun portal hp => notePortal_follows h (hbelow portal hp) _
  have hfields : Follows known ((layout.all "FieldObj").foldlM
      (Tally.noteField (layout.node.attrD "name" "Unknown Layout")) ·) [] :=
    .foldlM_nil fun field hf => noteField_follows h (hbelow field hf) _
  exact (hfields.bind (hportals.bind hobjects)).after_notes fun t =>
    (t.noteGiven_keeps _ _).trans (Tally.noteGiven_keeps _ _ _)

theorem noteStepQueries_eq (t : Tally) (text : String) (step : Site) :
    t.noteStepQueries known text step = (step.all "Calculation").foldlM (fun t c =>
      (c.node.text.filter runsQuery).toList.foldlM (Tally.noteStepQuery known text) t) t := by
  rw [Tally.noteStepQueries]
  congr 1
  funext t c
  cases c.node.text.filter runsQuery with
  | none => rfl
  | some q => simp [Tally.noteStepQuery]

theorem noteStepQueries_follows (text : String) (step : Site) :
    Follows known (fun t => t.noteStepQueries known text step)
      ((step.all "Calculation").flatMap fun c =>
        (c.node.text.filter runsQuery).toList.map (⟨.step, ·⟩)) := by
  simp only [noteStepQueries_eq]
  refine .foldlM fun c _ => ?_
  rw [List.map_eq_flatMap]
  refine .foldlM fun q hq => noteStepQuery_follows _ ?_
  exact (Option.filter_eq_some_iff.mp (Option.mem_toList.mp hq)).2

theorem noteAction_follows (label : String) (step : Site) :
    Follows known (fun t => t.noteAction known label step) (stepEvents step) := by
  simp only [Tally.noteAction, stepEvents]
  by_cases hset : stepName step = "Set Field"
  · simp only [hset]
    exact .of_keeps fun t => ⟨_, rfl, t.noteGiven_keeps _ _⟩
  by_cases hname : stepName step = "Set Field By Name"
  · simp only [hname]
    exact .of_keeps fun t => ⟨_, rfl, t.noteAll_keeps _ _⟩
  simp only [beq_iff_eq, hset, hname, if_false]
  split
  · exact noteStepQueries_follows _ step
  · exact .of_keeps fun t => ⟨t, rfl, .refl t⟩

theorem noteTarget_keeps (label : String) (step : Site) (t : Tally) :
    Keeps t (t.noteTarget known label step) := by
  rw [Tally.noteTarget]
  split
  · split
    · refine Keeps.foldl (fun t n => ?_) _ t
      split
      · exact .refl t
      · exact t.note_keeps _ _
    · exact .refl t
  · split
    · split
      · exact t.noteGiven_keeps _ _
      · exact .refl t
    · exact .refl t

theorem noteFields_keeps (text : String) (step : Site) (t : Tally) :
    Keeps t (t.noteFields text step) := by
  refine Keeps.foldl (fun t f => ?_) _ t
  split
  · exact t.noteNew_keeps _ _
  · exact .refl t

theorem noteStep_follows (script : String) (step : Site) :
    Follows known (fun t => t.noteStep known script step) (stepEvents step) :=
  (noteAction_follows _ step).before_notes fun t =>
    (noteTarget_keeps _ step t).trans (noteFields_keeps _ step _)

/-- The notes on a document succeed exactly if its events are orderly. -/
theorem exists_tally_eq_ok_iff (h : FiniteBounds root) :
    (∃ t, Tally.of known root = .ok t) ↔ Orderly known false (events root) := by
  have hscripts : Follows known ((root.all "Script").foldlM (Tally.noteScript known) ·)
      ((root.all "Script").flatMap fun s => (s.all "Step").flatMap stepEvents) :=
    .foldlM fun s _ => .foldlM fun step _ => noteStep_follows _ step
  have hlayouts : Follows known ((root.all "Layout").foldlM (Tally.noteLayout known) ·)
      ((root.all "Layout").flatMap fun l => (l.all "Object").flatMap objectEvents) :=
    .foldlM fun l hl => noteLayout_follows h (Site.mem_all.mp hl).1
  exact (hscripts.bind hlayouts).succeeds {} rfl

/-! ## The report -/

/-- The report is complete: no fault is told of, and there is one row for each known name. -/
def IsComplete (findings : Sheet.Findings) (known : Register String) : Prop :=
  findings.log = [] ∧
    (findings.rows.map fun row => row.lookup "Table Occurrence").Perm
      (known.names.map fun name => some (.text name))

theorem arranged_perm (rows : List Row) : (arranged rows).Perm rows :=
  (sortBy_perm _ _).trans ((sortBy_perm _ _).trans (sortBy_perm _ _))

/-- With notes on the document there is a row for each known name. -/
theorem rowsOf_names {text : List Char} {rows : List Row}
    (h : rowsOf register root text = .ok rows) : rows.map Row.occurrence = register.names := by
  obtain ⟨tally, -, h⟩ := bind_eq_ok_iff.mp h
  rw [← pure_eq_ok_iff.mp h, List.map_map]
  rfl

theorem exists_rowsOf_eq_ok_iff (text : List Char) :
    (∃ rows, rowsOf register root text = .ok rows) ↔
      ∃ t, Tally.of register.names root = .ok t := by
  constructor
  · rintro ⟨rows, h⟩
    obtain ⟨tally, htally, -⟩ := bind_eq_ok_iff.mp h
    exact ⟨tally, htally⟩
  · rintro ⟨tally, htally⟩
    exact ⟨_, bind_eq_ok_iff.mpr ⟨tally, htally, rfl⟩⟩

/-- The rows of the document decide what the audit gives: a complete report, or none at all. -/
theorem audit_of_prepare {raw : String} {given : Option Given}
    (h : prepare raw given = .ok (register, root)) :
    audit raw given =
      match rowsOf register root raw.toList with
      | .ok rows => { rows := (arranged rows).map Row.cells }
      | .error fault => { log := ["Error in Table Occurrences Check: " ++ fault.message] } := by
  simp only [audit, h]
  rfl

theorem isComplete_iff {raw : String} {given : Option Given}
    (h : prepare raw given = .ok (register, root)) :
    IsComplete (audit raw given) register ↔ ∃ t, Tally.of register.names root = .ok t := by
  rw [audit_of_prepare h, ← exists_rowsOf_eq_ok_iff raw.toList, IsComplete]
  cases hrows : rowsOf register root raw.toList with
  | error fault => simp
  | ok rows =>
    simp only [true_and, Except.ok.injEq, exists_eq', iff_true]
    rw [List.map_map, ← rowsOf_names hrows, List.map_map]
    exact (arranged_perm rows).map _

/-- **When the report is complete.** For a document whose distances are finite numbers, the audit has
one row for each table occurrence, and tells of no fault, exactly if no query reads a table with a
blank name and each calculation that asks for tables or patterns has one before it that sets them up.
Otherwise no row is left. The names of the occurrences of a document are distinct. -/
theorem audit_complete_iff {raw : String} {given : Option Given} {register : Register String}
    {root : Site} (hprepare : prepare raw given = .ok (register, root))
    (hbounds : FiniteBounds root) :
    (IsComplete (audit raw given) register ↔
      ∀ before e after, events root = before ++ e :: after →
        e.Readable ∧ (e.Needs register.names → ∃ o ∈ before, o.opens = true)) ∧
    (¬ IsComplete (audit raw given) register →
      (audit raw given).rows = [] ∧ ∃ line, (audit raw given).log = [line]) ∧
    (given = none → register.names.Nodup) := by
  refine ⟨?_, fun hlost => ?_, ?_⟩
  · rw [isComplete_iff hprepare, exists_tally_eq_ok_iff hbounds, orderly_false_iff]
  · rw [isComplete_iff hprepare, ← exists_rowsOf_eq_ok_iff raw.toList] at hlost
    rw [audit_of_prepare hprepare]
    cases hrows : rowsOf register root raw.toList with
    | error fault => exact ⟨rfl, _, rfl⟩
    | ok rows => exact absurd ⟨rows, hrows⟩ hlost
  · rintro rfl
    obtain ⟨root', -, h⟩ := bind_eq_ok_iff.mp hprepare
    obtain ⟨rfl, -⟩ := Prod.mk.inj (pure_eq_ok_iff.mp h)
    exact Register.nodup_names_insertAll (Register.nodup_names_ofList _) _

/-- A report with a query in a step, and an object with one calculation of each kind. -/
def busyReport : Node :=
  plain "Report" []
    [plain "Script" [("name", "S")]
      [plain "Step" [("name", "If")] [calculationOf "ExecuteSQL ( \"SELECT x FROM A\" )"]],
     plain "Layout" [("name", "L")]
      [plain "Object" []
        [plain "Bounds" [("top", "1.5"), ("left", "2e1")] [],
         plain "HideCondition" [] [calculationOf "A::x"],
         plain "Tooltip" [] [calculationOf "ExecuteSQL ( \"SELECT x FROM A JOIN B\" )"],
         plain "ConditionalFormatting" [] [calculationOf "B::x"],
         calculationOf "ExecuteSQL ( \"SELECT x FROM B\" )"]]]

def busyOccurrences : Register String := .ofList [("A", "T"), ("B", "T")]

theorem busyReport_finiteBounds : FiniteBounds (Site.root busyReport) := by
  intro b hb key hkey value hvalue
  have hbounds : (Site.root busyReport).all "Bounds" =
      [((Site.root busyReport).all "Bounds").get ⟨0, by decide⟩] := rfl
  rw [hbounds, List.mem_singleton] at hb
  subst hb
  simp only [List.mem_cons, List.not_mem_nil, or_false] at hkey
  rcases hkey with rfl | rfl
  · cases hvalue
    exact ⟨_, _, _, rfl⟩
  · cases hvalue
    exact ⟨_, _, _, rfl⟩

theorem busyReport_isComplete :
    prepare "" (some ⟨busyOccurrences, some busyReport⟩) =
        .ok (busyOccurrences, Site.root busyReport) ∧
      (events (Site.root busyReport)).length = 5 ∧
      IsComplete (audit "" (some ⟨busyOccurrences, some busyReport⟩)) busyOccurrences := by
  have horderly : Orderly busyOccurrences.names false (events (Site.root busyReport)) := by
    decide +kernel
  exact ⟨rfl, by decide,
    (audit_complete_iff rfl busyReport_finiteBounds).1.mpr (orderly_false_iff.mp horderly)⟩

end DesignAudit.Occurrence
