import DesignAudit.Dangling.Status
import DesignAudit.Proofs.Text.Cutting
import DesignAudit.Proofs.Traversal

/-!
# The name that a location tells

The folder of a reference is looked up by a name that is read from the location, which is a text for
the reader. From the location of a script, and from that of a layout, a part of the name is read
(`scriptIn_location`, `layoutIn_location`). It is the whole name exactly if the name has none of the
marks that end it (`toldScript_eq_self_iff`, `toldLayout_eq_self_iff`).

A location that has a mark for a script or a layout but no name after it is a fault
(`exists_statusOf_iff`).
-/

namespace DesignAudit.Dangling

open Text Traversal

/-! ## Marks -/

theorem toList_ne_nil {mark : String} (h : mark ≠ "") : mark.toList ≠ [] :=
  mt String.toList_eq_nil_iff.mp h

theorem toList_beforeMark (mark t : String) :
    (beforeMark mark t).toList = upTo mark.toList t.toList := by
  rw [beforeMark, cutAt, cut_eq_cons, List.map_cons, List.head?_cons, Option.getD_some,
    String.toList_ofList]

theorem afterMark_append {mark : String} (h : mark ≠ "") (t : String) :
    afterMark mark (mark ++ t) = .ok (beforeMark mark t) := by
  have hpieces : cutAt mark (mark ++ t) = "" :: cutAt mark t := by
    rw [cutAt, String.toList_append, cut_append (toList_ne_nil h), List.map_cons]
    rfl
  have hfirst : cutAt mark t = beforeMark mark t :: (cutAt mark t).tail := by
    rw [beforeMark, cutAt, cut_eq_cons]
    rfl
  rw [afterMark, hpieces, hfirst]

theorem exists_afterMark_iff {mark : String} (h : mark ≠ "") {t : String} :
    (∃ name, afterMark mark t = .ok name) ↔ has mark t = true := by
  rw [has_iff, ← exists_second_iff (toList_ne_nil h), afterMark, cutAt]
  constructor
  · rintro ⟨name, hname⟩
    split at hname
    · rename_i first second more hcut
      obtain ⟨a, rest, hpieces, -, hrest⟩ := List.map_eq_cons_iff.mp hcut
      obtain ⟨b, more, rfl, -, -⟩ := List.map_eq_cons_iff.mp hrest
      exact ⟨a, b, more, hpieces⟩
    · cases hname
  · rintro ⟨a, b, more, hpieces⟩
    rw [hpieces]
    exact ⟨String.ofList b, rfl⟩

/-! ## Names -/

/-- What is read back of the name of a script. -/
def toldScript (name : String) : String := beforeMark "," (beforeMark "Script: " name)

/-- What is read back of the name of a layout. -/
def toldLayout (name : String) : String :=
  trim (beforeMark " Top:" (beforeMark "," (beforeMark "Layout: " name)))

/-- The location of a step tells what is read back of the name of its script, whatever follows. -/
theorem scriptIn_location (script place : String) :
    scriptIn s!"Script: {script}, {place}" = .ok (toldScript script) := by
  have hlocation : s!"Script: {script}, {place}" = "Script: " ++ (script ++ (", " ++ place)) := by
    simp [toString, String.append_assoc]
  have htold : beforeMark "," (beforeMark "Script: " (script ++ (", " ++ place))) =
      toldScript script := by
    rw [toldScript, ← String.toList_inj]
    simp only [toList_beforeMark, String.toList_append]
    exact upTo_singleton_upTo (by decide) (by decide) script.toList (' ' :: place.toList)
  rw [scriptIn, hlocation, afterMark_append (by decide), ok_bind, htold]
  rfl

theorem layoutIn_location (layout : String) :
    layoutIn ("Layout: " ++ layout) = .ok (toldLayout layout) := by
  rw [layoutIn, afterMark_append (by decide), ok_bind]
  rfl

/-- A script is told by its own name exactly if the name has neither mark. -/
theorem toldScript_eq_self_iff {name : String} :
    toldScript name = name ↔ has "," name = false ∧ has "Script: " name = false := by
  rw [toldScript, ← String.toList_inj, toList_beforeMark, toList_beforeMark, has_eq_false_iff,
    has_eq_false_iff, ← upTo_eq_self_iff (toList_ne_nil (by decide)),
    ← upTo_eq_self_iff (toList_ne_nil (by decide))]
  constructor
  · intro h
    have hscript := eq_self_of_upTo_eq h (upTo_prefix_text _ _)
    rw [hscript] at h
    exact ⟨h, hscript⟩
  · rintro ⟨hcomma, hscript⟩
    rw [hscript, hcomma]

/-- A layout is told by its own name exactly if the name has none of the three marks, and no blank at
its ends. -/
theorem toldLayout_eq_self_iff {name : String} :
    toldLayout name = name ↔
      has " Top:" name = false ∧ has "," name = false ∧ has "Layout: " name = false ∧
        trim name = name := by
  simp only [toldLayout, trim, ← String.toList_inj, String.toList_ofList, toList_beforeMark,
    has_eq_false_iff]
  rw [← upTo_eq_self_iff (toList_ne_nil (by decide)), ← upTo_eq_self_iff (toList_ne_nil (by decide)),
    ← upTo_eq_self_iff (toList_ne_nil (by decide))]
  constructor
  · intro h
    -- trimming makes a text no longer, so each cut has left the name as it was
    have htop : upTo " Top:".toList (upTo ",".toList (upTo "Layout: ".toList name.toList)) =
        name.toList := by
      refine List.IsPrefix.eq_of_length_le
        ((upTo_prefix_text _ _).trans ((upTo_prefix_text _ _).trans (upTo_prefix_text _ _))) ?_
      exact (congrArg List.length h).ge.trans (length_trimChars_le _ _)
    have hcomma : upTo ",".toList (upTo "Layout: ".toList name.toList) = name.toList :=
      eq_self_of_upTo_eq htop ((upTo_prefix_text _ _).trans (upTo_prefix_text _ _))
    have hlayout := eq_self_of_upTo_eq hcomma (upTo_prefix_text _ _)
    rw [hlayout] at hcomma
    rw [hlayout, hcomma] at htop
    rw [hlayout, hcomma, htop] at h
    exact ⟨htop, hcomma, hlayout, h⟩
  · rintro ⟨htop, hcomma, hlayout, htrim⟩
    rw [hlayout, hcomma, htop, htrim]

/-! ## Standing -/

/-- A location tells a script whose folder is kept for deletion. -/
def TellsDeletedScript (f : Folders) (location : String) : Prop :=
  ∃ name, scriptIn location = .ok name ∧ inDeletedFolder f.scripts name = true

/-- A location tells a layout whose folder is kept for deletion. -/
def TellsDeletedLayout (f : Folders) (location : String) : Prop :=
  ∃ name, layoutIn location = .ok name ∧ inDeletedFolder f.layouts name = true

/-- A location tells of deletion: by its own words, by a script or by a layout. -/
def TellsDeletion (f : Folders) (location : String) : Prop :=
  speaksOfDeletion (lower location) = true ∨ TellsDeletedScript f location ∨
    TellsDeletedLayout f location

/-- A location can be read: it speaks of deletion, or each mark in it that is looked at is followed by
a name. A mark for a layout is not looked at once a script is found to be kept for deletion. -/
def Legible (f : Folders) (location : String) : Prop :=
  speaksOfDeletion (lower location) = true ∨
    (has "Script:" location = true → has "Script: " location = true) ∧
      (TellsDeletedScript f location ∨
        (has "Layout:" location = true → has "Layout: " location = true))

theorem tellsDeletedScript_location {f : Folders} (script place : String) :
    TellsDeletedScript f s!"Script: {script}, {place}" ↔
      inDeletedFolder f.scripts (toldScript script) = true := by
  simp [TellsDeletedScript, scriptIn_location]

theorem tellsDeletedLayout_location {f : Folders} (layout : String) :
    TellsDeletedLayout f ("Layout: " ++ layout) ↔
      inDeletedFolder f.layouts (toldLayout layout) = true := by
  simp [TellsDeletedLayout, layoutIn_location]

/-- A folder is looked up by a name that is read only where there is a mark. -/
def lookUp (folders : Register String) (marked : Bool) (name : Except Fault String) :
    Except Fault Bool :=
  if marked then do return inDeletedFolder folders (← name) else pure false

theorem isDeleted_eq (f : Folders) (location : String) :
    isDeleted f location =
      if speaksOfDeletion (lower location) then .ok true
      else lookUp f.scripts (has "Script:" location) (scriptIn location) >>= fun script =>
        if script then .ok true
        else lookUp f.layouts (has "Layout:" location) (layoutIn location) := by
  rw [isDeleted]
  split
  · rfl
  · cases has "Script:" location with
    | false => rfl
    | true =>
      cases scriptIn location with
      | error fault => rfl
      | ok name => rfl

section LookUp

variable (folders : Register String) {marked : Bool} {name : Except Fault String}

theorem exists_lookUp_iff :
    (∃ b, lookUp folders marked name = .ok b) ↔ (marked = true → ∃ t, name = .ok t) := by
  cases marked with
  | false => simp [lookUp, pure, Except.pure]
  | true =>
    cases name with
    | error fault => simp [lookUp]
    | ok t => simp [lookUp, pure, Except.pure]

theorem lookUp_eq_true_iff :
    lookUp folders marked name = .ok true ↔
      marked = true ∧ ∃ t, name = .ok t ∧ inDeletedFolder folders t = true := by
  cases marked with
  | false => simp [lookUp, pure, Except.pure]
  | true =>
    cases name with
    | error fault => simp [lookUp]
    | ok t => simp [lookUp, pure, Except.pure]

end LookUp

variable {f : Folders} {location : String}

theorem exists_scriptIn_iff :
    (∃ name, scriptIn location = .ok name) ↔ has "Script: " location = true := by
  rw [← exists_afterMark_iff (by decide), scriptIn]
  simp only [bind_eq_ok_iff, pure_eq_ok_iff]
  grind

theorem exists_layoutIn_iff :
    (∃ name, layoutIn location = .ok name) ↔ has "Layout: " location = true := by
  rw [← exists_afterMark_iff (by decide), layoutIn]
  simp only [bind_eq_ok_iff, pure_eq_ok_iff]
  grind

theorem lookUp_script_eq_true_iff :
    lookUp f.scripts (has "Script:" location) (scriptIn location) = .ok true ↔
      TellsDeletedScript f location := by
  rw [lookUp_eq_true_iff, TellsDeletedScript]
  refine ⟨And.right, fun h => ⟨?_, h⟩⟩
  obtain ⟨name, hname, -⟩ := h
  exact has_of_has_append " " (exists_scriptIn_iff.mp ⟨name, hname⟩)

theorem lookUp_layout_eq_true_iff :
    lookUp f.layouts (has "Layout:" location) (layoutIn location) = .ok true ↔
      TellsDeletedLayout f location := by
  rw [lookUp_eq_true_iff, TellsDeletedLayout]
  refine ⟨And.right, fun h => ⟨?_, h⟩⟩
  obtain ⟨name, hname, -⟩ := h
  exact has_of_has_append " " (exists_layoutIn_iff.mp ⟨name, hname⟩)

/-- Whether a location lies in a folder kept for deletion is known exactly if the location can be
read. -/
theorem exists_isDeleted_iff : (∃ b, isDeleted f location = .ok b) ↔ Legible f location := by
  rw [isDeleted_eq, Legible, ← exists_scriptIn_iff, ← exists_layoutIn_iff]
  split
  · rename_i hspeaks
    exact ⟨fun _ => .inl hspeaks, fun _ => ⟨true, rfl⟩⟩
  · rename_i hspeaks
    rw [← exists_lookUp_iff f.scripts, ← exists_lookUp_iff f.layouts,
      ← lookUp_script_eq_true_iff]
    cases lookUp f.scripts (has "Script:" location) (scriptIn location) with
    | error fault => simp [hspeaks]
    | ok script => cases script <;> simp [hspeaks]

theorem isDeleted_iff {b : Bool} (h : isDeleted f location = .ok b) :
    b = true ↔ TellsDeletion f location := by
  rw [isDeleted_eq] at h
  rw [TellsDeletion, ← lookUp_script_eq_true_iff, ← lookUp_layout_eq_true_iff]
  split at h
  · rename_i hspeaks
    obtain rfl := Except.ok.inj h
    exact ⟨fun _ => .inl hspeaks, fun _ => rfl⟩
  · rename_i hspeaks
    obtain ⟨script, hscript, h⟩ := bind_eq_ok_iff.mp h
    cases script with
    | true =>
      obtain rfl := Except.ok.inj h
      exact ⟨fun _ => .inr (.inl hscript), fun _ => rfl⟩
    | false =>
      have hlayout : lookUp f.layouts (has "Layout:" location) (layoutIn location) = .ok b := h
      rw [hscript, hlayout]
      simp [hspeaks]

theorem exists_statusOf_iff (error : String) (evidence : Evidence) :
    (∃ status, statusOf f location error evidence = .ok status) ↔ Legible f location := by
  rw [← exists_isDeleted_iff, statusOf]
  constructor
  · rintro ⟨status, h⟩
    obtain ⟨b, hb, -⟩ := bind_eq_ok_iff.mp h
    exact ⟨b, hb⟩
  · rintro ⟨b, hb⟩
    rw [hb, ok_bind]
    split
    · exact ⟨.toDelete, rfl⟩
    · split
      · exact ⟨.temporary, rfl⟩
      · exact ⟨_, rfl⟩

/-- A reference is to be deleted exactly if its location tells of deletion. -/
theorem statusOf_eq_toDelete_iff {error : String} {evidence : Evidence} {status : Status}
    (h : statusOf f location error evidence = .ok status) :
    status = .toDelete ↔ TellsDeletion f location := by
  obtain ⟨b, hb, h⟩ := bind_eq_ok_iff.mp h
  rw [← isDeleted_iff hb]
  cases b with
  | true =>
    obtain rfl := pure_eq_ok_iff.mp h
    exact ⟨fun _ => rfl, fun _ => rfl⟩
  | false =>
    refine ⟨fun hstatus => ?_, fun hb => by cases hb⟩
    subst hstatus
    simp only [Bool.false_eq_true, if_false] at h
    split at h
    · cases pure_eq_ok_iff.mp h
    · have h := pure_eq_ok_iff.mp h
      split at h <;> cases h

end DesignAudit.Dangling
