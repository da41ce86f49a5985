import DesignAudit.Proofs.Script.Counting
import DesignAudit.Proofs.Text.Cutting
import Mathlib.Data.Finset.Sort

/-!
# The lines in which a script name occurs

A traced audit keeps the line of each occurrence of a script name, at most fifty. The line is looked
up in a table of the positions at which lines begin. The table has one entry more than there are
lines, and the last one lies behind the end of the text, so that each position of the text lies in
exactly one line, and this line is found (`exists_line_of_lt`). Hence no occurrence is passed over:
what is kept are the lines of the first fifty occurrences (`forall₂_lines_counted`).
-/

namespace DesignAudit.Script

open Markup Text Traversal

/-! ## The table of line starts -/

/-- A position lies in a line: not before its start, and before the start of the next one. -/
def LineTable.LiesIn (t : LineTable) (e k : Nat) : Prop :=
  ∃ start next, t.starts[k]? = some start ∧ t.starts[k + 1]? = some next ∧ start ≤ e ∧ e < next

/-- The table of lines of which the first one begins at `i`. -/
def tableFrom (i : Nat) (lines : List (List Char)) : LineTable := ⟨lines, i :: lineEnds i lines⟩

section

variable {i e k : Nat} {line : List Char} {lines : List (List Char)}

theorem liesIn_zero :
    (tableFrom i (line :: lines)).LiesIn e 0 ↔ i ≤ e ∧ e < i + line.length + 1 := by
  simp [LineTable.LiesIn, tableFrom, lineEnds]

theorem liesIn_succ :
    (tableFrom i (line :: lines)).LiesIn e (k + 1) ↔
      (tableFrom (i + line.length + 1) lines).LiesIn e k := Iff.rfl

theorem not_liesIn_nil : ¬ (tableFrom i []).LiesIn e k := by
  rintro ⟨start, next, -, hnext, -⟩
  simp [tableFrom, lineEnds] at hnext

/-- No line begins before the first one. -/
theorem le_of_liesIn (h : (tableFrom i lines).LiesIn e k) : i ≤ e := by
  induction lines generalizing i k with
  | nil => exact absurd h not_liesIn_nil
  | cons line lines ih =>
    cases k with
    | zero => exact (liesIn_zero.mp h).1
    | succ k =>
      have := ih (liesIn_succ.mp h)
      omega

/-- The search in the table gives the line of a position, and the position lies in no other one. -/
theorem findIdx?_lineEnds (hle : i ≤ e) (hlt : e < i + (lines.flatMap (· ++ ['\n'])).length) :
    ∃ k, (lineEnds i lines).findIdx? (fun start => decide (e < start)) = some k ∧
      ∀ j, (tableFrom i lines).LiesIn e j ↔ j = k := by
  induction lines generalizing i with
  | nil =>
    rw [List.flatMap_nil, List.length_nil] at hlt
    omega
  | cons line lines ih =>
    rw [lineEnds, List.findIdx?_cons]
    by_cases h : e < i + line.length + 1
    · refine ⟨0, if_pos (decide_eq_true h), fun j => ?_⟩
      cases j with
      | zero => exact iff_of_true (liesIn_zero.mpr ⟨hle, h⟩) rfl
      | succ j =>
        refine iff_of_false (fun hj => ?_) (Nat.succ_ne_zero j)
        have := le_of_liesIn (liesIn_succ.mp hj)
        omega
    · have hlt' : e < i + line.length + 1 + (lines.flatMap (· ++ ['\n'])).length := by
        rw [List.flatMap_cons, List.length_append, List.length_append, List.length_singleton] at hlt
        omega
      obtain ⟨k, hfind, hlies⟩ := ih (Nat.not_lt.mp h) hlt'
      refine ⟨k + 1, ?_, fun j => ?_⟩
      · rw [if_neg (by simpa using h), hfind]
        rfl
      · cases j with
        | zero => exact iff_of_false (fun hj => h (liesIn_zero.mp hj).2) (Nat.succ_ne_zero k).symm
        | succ j => rw [liesIn_succ, hlies, Nat.succ_inj]

/-- The line of a position, with its line feed, holds the character at the position. -/
theorem covers_of_liesIn (h : (tableFrom i lines).LiesIn e k) :
    ∃ line start, lines[k]? = some line ∧ (tableFrom i lines).starts[k]? = some start ∧ start ≤ e ∧
      (line ++ ['\n'])[e - start]? = (lines.flatMap (· ++ ['\n']))[e - i]? := by
  induction lines generalizing i k with
  | nil => exact absurd h not_liesIn_nil
  | cons line lines ih =>
    rw [List.flatMap_cons]
    cases k with
    | zero =>
      obtain ⟨hle, hlt⟩ := liesIn_zero.mp h
      have hin : e - i < (line ++ ['\n']).length := by
        rw [List.length_append, List.length_singleton]
        omega
      exact ⟨line, i, rfl, rfl, hle, (List.getElem?_append_left hin).symm⟩
    | succ k =>
      have hrest := liesIn_succ.mp h
      obtain ⟨found, start, hfound, hstart, hle, hchar⟩ := ih hrest
      refine ⟨found, start, hfound, hstart, hle, ?_⟩
      have hpast : (line ++ ['\n']).length ≤ e - i := by
        have := le_of_liesIn hrest
        rw [List.length_append, List.length_singleton]
        omega
      rw [hchar, List.getElem?_append_right hpast, List.length_append, List.length_singleton]
      congr 1
      omega

end

/-- The line of a position of the text: the position lies in the line of number `k` and in no other
one, this number is found, and the line holds the character at the position. -/
structure LineTable.Finds (t : LineTable) (text : List Char) (e k : Nat) (line : List Char) : Prop where
  unique : ∀ j, t.LiesIn e j ↔ j = k
  number : t.number e = k
  valid : k < t.lines.length
  found : t.line? e = some line
  getElem? : t.lines[k]? = some line
  covers : ∃ start, t.starts[k]? = some start ∧ start ≤ e ∧
    (line ++ ['\n'])[e - start]? = text[e]?

/-- The lines of a text are looked up exactly. -/
theorem exists_line_of_lt {text : List Char} {e : Nat} (he : e < text.length) :
    ∃ k line, (LineTable.of text).Finds text e k line := by
  have hlt : e < 0 + ((cut ['\n'] text).flatMap (· ++ ['\n'])).length := by
    rw [flatMap_cut, List.length_append, List.length_singleton]
    omega
  obtain ⟨k, hfind, hlies⟩ := findIdx?_lineEnds (Nat.zero_le e) hlt
  obtain ⟨line, start, hline, hstart, hle, hchar⟩ := covers_of_liesIn ((hlies k).mpr rfl)
  rw [flatMap_cut, Nat.sub_zero, List.getElem?_append_left he] at hchar
  have hvalid : k < (LineTable.of text).lines.length := (List.getElem?_eq_some_iff.mp hline).1
  have hnumber : (LineTable.of text).number e = k := by
    rw [LineTable.number, LineTable.of, List.findIdx?_cons, hfind]
    simp
  refine ⟨k, line, hlies, hnumber, hvalid, ?_, hline, start, hstart, hle, hchar⟩
  rw [LineTable.line?, hnumber, if_pos ⟨Int.natCast_nonneg k, Int.ofNat_lt.mpr hvalid⟩]
  exact hline

/-! ## The occurrences that are kept -/

/-- The occurrences of a name are found from left to right. -/
theorem lasts_eq {names : List String} (hnodup : names.Nodup) (hne : ∀ name ∈ names, name ≠ "")
    (text : List Char) {name : String} (hname : name ∈ names) :
    ((occurrences names text).filter (·.2 == name)).map (·.1) =
      (positions name.toList text).sort.map (· + name.toList.length - 1) := by
  have hlength : 0 < name.toList.length :=
    List.length_pos_of_ne_nil fun hnil => hne name hname (String.toList_eq_nil_iff.mp hnil)
  have hfound : (((occurrences names text).filter (·.2 == name)).map (·.1)).Pairwise (· < ·) := by
    rw [List.pairwise_map]
    refine ((occurrences_pairwise hnodup text).filter _).imp_of_mem fun {x y} hx hy hbefore => ?_
    have hx := beq_iff_eq.mp (List.mem_filter.mp hx).2
    have hy := beq_iff_eq.mp (List.mem_filter.mp hy).2
    exact hbefore.resolve_right fun h => h.2 (hx.trans hy.symm)
  have hsorted : ((positions name.toList text).sort.map
      (· + name.toList.length - 1)).Pairwise (· < ·) := by
    rw [List.pairwise_map]
    exact (Finset.sortedLT_sort _).pairwise.imp fun {i j} hij => by omega
  refine List.Perm.eq_of_pairwise (fun a b _ _ hab hba => absurd hab (Nat.lt_asymm hba)) hfound
    hsorted ?_
  refine (List.perm_ext_iff_of_nodup (hfound.imp Nat.ne_of_lt) (hsorted.imp Nat.ne_of_lt)).mpr ?_
  intro last
  rw [(reportsEach_occurrences hnodup hne text).mem_lasts hname, List.mem_map]
  simp only [Finset.mem_sort, eq_comm]

/-- The lines of a tally are the first fifty of those that are looked up. -/
theorem lines_foldl_enter (table : LineTable) (found : List (Nat × String)) {t : Tally}
    (ht : t.lines.length ≤ 50) :
    (found.foldl (fun t x => t.enter (some table) x.2 x.1) t).lines =
      (t.lines ++ found.filterMap fun x => (table.line? x.1).map (marked x.2.toList)).take 50 := by
  induction found generalizing t with
  | nil => rw [List.foldl_nil, List.filterMap_nil, List.append_nil, List.take_of_length_le ht]
  | cons x found ih =>
    have hlines : (t.enter (some table) x.2 x.1).lines =
        if t.lines.length < 50 then t.lines ++ ((table.line? x.1).map (marked x.2.toList)).toList
        else t.lines := rfl
    rw [List.foldl_cons]
    by_cases hroom : t.lines.length < 50
    · rw [if_pos hroom] at hlines
      rw [ih (by rw [hlines]; cases table.line? x.1 <;> simp <;> omega), hlines,
        List.append_assoc, List.filterMap_cons]
      cases table.line? x.1 <;> rfl
    · rw [if_neg hroom] at hlines
      have hfull : t.lines.length = 50 := by omega
      rw [ih (by rw [hlines]; exact ht), hlines, List.take_append_of_le_length (by omega),
        List.take_append_of_le_length (by omega)]

/-- No occurrence is passed over: the lines that are kept are those of the first fifty occurrences.
-/
theorem forall₂_lines_counted {names : List String} (hnodup : names.Nodup)
    (hne : ∀ name ∈ names, name ≠ "") (text : List Char) {name : String} (hname : name ∈ names) :
    List.Forall₂ (fun i line => ∃ shown,
        (LineTable.of text).line? (i + name.toList.length - 1) = some shown ∧
          line = marked name.toList shown)
      ((positions name.toList text).sort.take 50)
      ((counted (some (.of text)) names (occurrences names text)).getD name {}).lines := by
  have hnil : name.toList ≠ [] := fun h => hne name hname (String.toList_eq_nil_iff.mp h)
  let lineOf (last : Nat) : Option String :=
    ((LineTable.of text).line? last).map (marked name.toList)
  -- all that is found of the name is looked up for the name itself
  have hlines : ((occurrences names text).filter (·.2 == name)).filterMap
      (fun x => ((LineTable.of text).line? x.1).map (marked x.2.toList)) =
        (positions name.toList text).sort.filterMap (lineOf <| · + name.toList.length - 1) := by
    have hshift := List.filterMap_map (f := (· + name.toList.length - 1)) (g := lineOf)
      (l := (positions name.toList text).sort)
    rw [← lasts_eq hnodup hne text hname, List.filterMap_map] at hshift
    refine Eq.trans (List.filterMap_congr fun x hx => ?_) hshift
    obtain rfl : x.2 = name := beq_iff_eq.mp (List.mem_filter.mp hx).2
    rfl
  have hfound : ∀ i ∈ (positions name.toList text).sort,
      (lineOf (i + name.toList.length - 1)).isSome = true := by
    intro i hi
    have hoccurs := mem_positions.mp (Finset.mem_sort _ |>.mp hi)
    obtain ⟨k, line, hline⟩ := exists_line_of_lt (hoccurs.end_lt hnil)
    rw [Option.isSome_map, hline.found]
    rfl
  rw [getD_counted, lines_foldl_enter _ _ (Nat.zero_le _), List.nil_append, hlines]
  refine (List.forall₂_take 50 (forall₂_filterMap hfound)).imp fun i line hi => ?_
  obtain ⟨shown, hshown, rfl⟩ := Option.map_eq_some_iff.mp hi
  exact ⟨shown, hshown, rfl⟩

/-- The lines that a traced report keeps are filled up where a name occurs less than twice. -/
theorem lines_talliesOf {root : Site} {name : String} (hname : name ∈ (Index.of root).names)
    (text : List Char) :
    ((talliesOf true (Index.of root).names text).getD name {}).lines =
      let kept := ((counted (some (.of text)) (Index.of root).names
        (occurrences (Index.of root).names text)).getD name {}).lines
      if (positions name.toList text).card < 2 then filled kept else kept := by
  have hcount : ((counted (some (.of text)) (Index.of root).names
      (occurrences (Index.of root).names text)).getD name {}).count =
        (positions name.toList text).card := by
    rw [getD_counted, count_foldl_enter,
      (reportsEach_index root text).length_filter hname (ne_empty_of_mem_names hname)]
    exact Nat.zero_add _
  rw [talliesOf, if_pos rfl, getD_tallied _ _ hname, Tally.raise, hcount]
  split <;> rfl

/-- **Lines are looked up exactly.** Each position of a text lies in exactly one line, by the table
of line starts. The number of this line is found, it is valid, and the line with its line feed holds
the character at the position. So in a traced report no occurrence of the name of a script is passed
over: before the floor the tally of a name holds the marked lines of the first fifty occurrences, in
order. The row keeps these lines, filled up to two, and shows the first ten. -/
theorem traced_lines_exact [Marks] (raw : String) :
    (∀ e < raw.toList.length, ∃ k line, (LineTable.of raw.toList).Finds raw.toList e k line) ∧
    (audit true raw).rows = (reportRows true raw).map Row.cells ∧
    ∀ r ∈ reportRows true raw, ∃ root kept, openDocument "findall" raw = .ok root ∧
      ((counted (some (.of raw.toList)) (Index.of root).names
        (occurrences (Index.of root).names raw.toList)).getD r.name {}).lines = kept ∧
      kept.length = min 50 (positions r.name.toList raw.toList).card ∧
      List.Forall₂ (fun i line => ∃ shown,
          (LineTable.of raw.toList).line? (i + r.name.toList.length - 1) = some shown ∧
            line = marked r.name.toList shown)
        ((positions r.name.toList raw.toList).sort.take 50) kept ∧
      ∃ shown, r.trace = some shown ∧
        shown = (if (positions r.name.toList raw.toList).card < 2 then filled kept else kept) ∧
        r.cells.lookup "XML Occurrences (Debug)" = some (.text (lines (shown.take 10))) := by
  refine ⟨fun e he => exists_line_of_lt he, audit_rows true raw, fun r hr => ?_⟩
  cases hopen : openDocument "findall" raw with
  | error fault =>
    rw [reportRows, hopen] at hr
    cases hr
  | ok root =>
    obtain ⟨_, -, name, hname, rfl⟩ := (mem_reportRows true hopen).mp hr
    have hname := Register.mem_names_iff.mpr hname
    have hnodup : (Index.of root).names.Nodup := Register.nodup_names_ofList _
    have hne : ∀ n ∈ (Index.of root).names, n ≠ "" := fun _ => ne_empty_of_mem_names
    have hkept := forall₂_lines_counted hnodup hne raw.toList hname
    refine ⟨root, _, rfl, rfl, ?_, hkept, _, rfl, lines_talliesOf hname raw.toList, rfl⟩
    refine hkept.length_eq.symm.trans ?_
    rw [List.length_take, Finset.length_sort]
    rfl

/-- A report with a script whose name has two lines, and with the name once in its text. -/
def brokenReport : String :=
  "<F><Script name='A&#10;B'><Step/></Script>\n\nA\nB</F>\n"

def brokenTree : Node :=
  plain "F" [] [plain "Script" [("name", "A\nB")] [plain "Step" [] []]]

set_option maxRecDepth 20000 in
theorem read_broken : read brokenReport = .ok (some brokenTree) :=
  (read_eq_of_toList String.toList_ofList (by decide) (by rfl) (by rfl)).trans (by rfl)

/-- The occurrence ends in the fourth line of the text, and this line is kept, with a note for the
second one that is missing. -/
theorem broken_line_traced :
    ∃ r ∈ reportRows true brokenReport, r.name = "A\nB" ∧
      (∃ line, (LineTable.of brokenReport.toList).Finds brokenReport.toList 46 3 line) ∧
      ∃ line, r.trace = some [line, "(Self-reference assumed)"] := by
  obtain ⟨hlines, -, hrows⟩ := traced_lines_exact brokenReport
  have hopen := openDocument_of_read read_broken "findall"
  have hdeep : DeepFields (Site.root brokenTree) := by decide
  obtain ⟨usages, husages⟩ :=
    exists_referenceUsages_iff.mpr (hdeep.allPlaced (above_of_openDocument hopen))
  have hname : "A\nB" ∈ (reportRows true brokenReport).map Row.name := by
    rw [(names_reportRows_perm true hopen husages).mem_iff]
    decide
  obtain ⟨r, hr, hname⟩ := List.mem_map.mp hname
  have htext : brokenReport.toList = _ := String.toList_ofList
  refine ⟨r, hr, hname, ?_, ?_⟩
  · obtain ⟨k, line, hfinds⟩ := hlines 46 (by rw [htext]; decide)
    have hnumber : (LineTable.of brokenReport.toList).number 46 = 3 := by
      rw [htext]
      decide +kernel
    obtain rfl : k = 3 := Int.ofNat_inj.mp (hfinds.number.symm.trans hnumber)
    exact ⟨line, hfinds⟩
  · have hone : (positions "A\nB".toList brokenReport.toList).card = 1 := by
      rw [htext]
      decide +kernel
    obtain ⟨_, kept, -, -, hlength, -, shown, htrace, rfl, -⟩ := hrows r hr
    rw [hname, hone] at hlength htrace
    obtain ⟨line, rfl⟩ := List.length_eq_one_iff.mp hlength
    exact ⟨line, htrace⟩

end DesignAudit.Script
