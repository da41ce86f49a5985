import DesignAudit.Proofs.Book.Cells
import DesignAudit.Proofs.Run.Undisturbed
import DesignAudit.Proofs.Text.Search

/-!
# What the report of a run holds

When a report is written without a fault, its file holds one page for each sheet, in the order in which
the sheets were arranged (`exists_report_of_generate`). A page bears the name of its sheet, with a number
behind it if another sheet has the name already.
-/

namespace DesignAudit

open Text Traversal

/-! ## Pages -/

namespace Book

open Sheet

theorem beginsWith_freeTitle (taken : List String) (title : String) :
    beginsWith title (freeTitle taken title) = true := by
  unfold freeTitle
  split
  · split
    · exact beginsWith_self title
    · exact beginsWith_append (beginsWith_self title) _
  · exact beginsWith_self title

theorem beginsWith_title_of_writePage {taken : List String} {title : String} {rows : List Row}
    {page : Page} (h : writePage taken title rows = (page, none)) :
    beginsWith title page.title = true := by
  unfold writePage at h
  dsimp only at h
  split at h
  · cases (Prod.mk.inj h).2
  · split at h
    · cases (Prod.mk.inj h).2
    · obtain ⟨rfl, -⟩ := Prod.mk.inj h
      show beginsWith title (if _ then title else _) = true
      split
      · exact beginsWith_self title
      · exact beginsWith_freeTitle _ title

/-- A page is written for a sheet: it bears its name and holds the cells of its rows. -/
def WrittenFor (sheet : String × List Row) (page : Page) : Prop :=
  beginsWith sheet.1 page.title = true ∧ writeCells sheet.2 = (page.cells, true)

/-- Without a fault one page is written for each sheet, in order. -/
theorem forall₂_writeFrom {done pages : List Page} {sheets : List (String × List Row)}
    (h : writeFrom done sheets = (pages, none)) :
    ∃ new, pages = done ++ new ∧ List.Forall₂ WrittenFor sheets new := by
  induction sheets generalizing done with
  | nil =>
    rw [writeFrom] at h
    obtain ⟨rfl, -⟩ := Prod.mk.inj h
    exact ⟨[], (List.append_nil _).symm, .nil⟩
  | cons sheet sheets ih =>
    obtain ⟨title, rows⟩ := sheet
    rw [writeFrom] at h
    cases hpage : writePage (done.map Page.title) title rows with
    | mk page fault =>
      cases fault with
      | some fault =>
        rw [hpage] at h
        cases (Prod.mk.inj h).2
      | none =>
        rw [hpage] at h
        obtain ⟨new, rfl, hnew⟩ := ih h
        exact ⟨page :: new, by rw [List.append_assoc]; rfl,
          .cons ⟨beginsWith_title_of_writePage hpage, writeCells_of_writePage hpage⟩ hnew⟩

theorem title_of_format {f : Format} {page page' : Page} (h : page.format f = .ok page') :
    page'.title = page.title := by
  unfold Page.format at h
  obtain ⟨grid, -, hpage⟩ := bind_eq_ok_iff.mp h
  rw [← pure_eq_ok_iff.mp hpage]

end Book

/-! ## The actions of a report -/

namespace Run

variable {α β : Type}

/-- An action gives something in a world and leaves a world behind. -/
def Gives (x : Action α) (w : World) (a : α) (w' : World) : Prop :=
  result x w = .ok a ∧ after x w = w'

variable {w w' : World}

theorem gives_bind {x : Action α} {f : α → Action β} {b : β} :
    Gives (x >>= f) w b w' ↔ ∃ a v, Gives x w a v ∧ Gives (f a) v b w' := by
  unfold Gives
  rw [result_bind, bind_eq_ok_iff]
  constructor
  · rintro ⟨⟨a, ha, hb⟩, hafter⟩
    rw [after_bind_of_ok ha] at hafter
    exact ⟨a, after x w, ⟨ha, rfl⟩, hb, hafter⟩
  · rintro ⟨a, _, ⟨ha, rfl⟩, hb, hafter⟩
    exact ⟨⟨a, ha, hb⟩, (after_bind_of_ok ha f).trans hafter⟩

/-- What is only told on a condition does not matter for the files. -/
theorem Gives.of_when {c : Prop} [Decidable c] {x : Action PUnit} {f : PUnit → Action β} {b : β}
    (h : Gives (if c then x >>= f else f ⟨⟩) w b w') (hx : Keeps SameFiles x) :
    ∃ v, SameFiles w v ∧ Gives (f ⟨⟩) v b w' := by
  split at h
  · obtain ⟨_, v, ⟨-, rfl⟩, hf⟩ := gives_bind.mp h
    exact ⟨_, hx w, hf⟩
  · exact ⟨w, refl_of SameFiles w, h⟩

theorem gives_orStop {ε : Type} {g : ε → Stop} {y : Except ε α} {a : α}
    (h : Gives (orStop g y) w a w') : y = .ok a ∧ w' = w := by
  cases y with
  | ok b => exact ⟨congrArg _ (Except.ok.inj h.1), h.2.symm⟩
  | error e => cases h.1

theorem forall₂_of_gives_mapM {f : α → Action β} {xs : List α} {ys : List β}
    {r : α → β → Prop} (hf : ∀ {a b v v'}, Gives (f a) v b v' → r a b)
    (h : Gives (xs.mapM f) w ys w') : List.Forall₂ r xs ys := by
  induction xs generalizing ys w w' with
  | nil =>
    rw [List.mapM_nil] at h
    obtain rfl := Except.ok.inj h.1
    exact .nil
  | cons x xs ih =>
    rw [List.mapM_cons] at h
    obtain ⟨y, v, hy, h⟩ := gives_bind.mp h
    obtain ⟨ys', v', hys, h⟩ := gives_bind.mp h
    obtain rfl := Except.ok.inj h.1
    exact .cons (hf hy) (ih hys)

theorem gives_reportPath {base path : String} (h : Gives (reportPath base) w path w') :
    path = below (below w.home "Exports") (lastName base ++ "_full_report.xlsx") := by
  unfold reportPath at h
  obtain ⟨folder, v, ⟨hfolder, -⟩, hpath⟩ := gives_bind.mp h
  rw [result_homeFolder] at hfolder
  obtain rfl := Except.ok.inj hfolder
  exact (Except.ok.inj hpath.1).symm

theorem gives_writeReport {path : String} {sheets : List (String × Leaf)} {pages : List Book.Page}
    (h : Gives (writeReport path sheets) w pages w') :
    Book.write (sheets.map fun (name, leaf) => (name, leaf.rows)) = (pages, none) := by
  unfold writeReport at h
  cases hwrite : Book.write (sheets.map fun (name, leaf) => (name, leaf.rows)) with
  | mk written fault =>
    rw [hwrite] at h
    obtain ⟨_, v, -, h⟩ := gives_bind.mp h
    cases fault with
    | some fault => cases h.1
    | none =>
      obtain rfl := Except.ok.inj h.1
      rfl

theorem gives_tellWriting {o : Options} {places : Register Number.Binary}
    {sheets : List (String × Leaf)} {told : Bool}
    (h : Gives (tellWriting o (some places) sheets) w told w') : told = true := by
  unfold tellWriting at h
  split at h
  · obtain ⟨_, v, -, h⟩ := gives_bind.mp h
    obtain ⟨_, v, -, h⟩ := gives_bind.mp h
    exact (Except.ok.inj h.1).symm
  · exact (Except.ok.inj h.1).symm

/-- A page of the report shows a sheet: it bears its name and is laid out from the cells that are
written for its rows. -/
def Shows (sheet : String × Leaf) (page : Book.Page) : Prop :=
  beginsWith sheet.1 page.title = true ∧
    ∃ (plain : Book.Page) (format : Book.Format),
      Book.writeCells sheet.2.rows = (plain.cells, true) ∧ plain.format format = .ok page

/-- A report that is written without a fault holds one page for each sheet, in their order. -/
theorem exists_report_of_generate {o : Options} {m : Machine} {sheets : Register Leaf}
    {base : String} {total : Int} {places : Register Number.Binary}
    (h : Gives (generate o m sheets base total (some places)) w () w') :
    ∃ pages, w'.files.get? (below (below w.home "Exports") (lastName base ++ "_full_report.xlsx")) =
        some (.report pages) ∧
      List.Forall₂ Shows (arranged (settled places) sheets) pages := by
  unfold generate at h
  obtain ⟨path, v, hpath, h⟩ := gives_bind.mp h
  obtain rfl := gives_reportPath hpath
  obtain ⟨v, -, h⟩ := h.of_when (sameFiles_tell _)
  obtain ⟨told, v, htold, h⟩ := gives_bind.mp h
  obtain rfl := gives_tellWriting htold
  obtain ⟨pages, v, hpages, h⟩ := gives_bind.mp h
  obtain ⟨v, -, h⟩ := h.of_when (sameFiles_tell _)
  obtain ⟨formatted, v, hformatted, h⟩ := gives_bind.mp h
  obtain ⟨_, _, ⟨-, rfl⟩, h⟩ := gives_bind.mp h
  -- what follows is only told
  have hsame : SameFiles (v.put (below (below w.home "Exports")
      (lastName base ++ "_full_report.xlsx")) (.report formatted)) w' := by
    rw [← h.2]
    exact (sameFiles_openFile o m _).bind
      (fun _ => (sameFiles_say _).bind fun _ => sameFiles_say _) _
  refine ⟨formatted, ?_, ?_⟩
  · rw [hsame.files, World.put, Register.get?_insert, if_pos rfl]
  · obtain ⟨new, rfl, hnew⟩ := Book.forall₂_writeFrom (gives_writeReport hpages)
    rw [if_pos rfl, List.forall₂_map_left_iff] at hnew
    have hformats := forall₂_of_gives_mapM
      (r := fun (p : Book.Page) p' => ∃ f : Book.Format, p.format f = .ok p')
      (fun hp => ⟨_, (gives_orStop hp).1⟩) hformatted
    refine forall₂_trans ?_ hnew hformats
    rintro sheet page page' ⟨htitle, hcells⟩ ⟨f, hformat⟩
    exact ⟨Book.title_of_format hformat ▸ htitle, page, f, hcells, hformat⟩

end Run

end DesignAudit
