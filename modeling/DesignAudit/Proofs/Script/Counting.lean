import DesignAudit.Proofs.Script.Rows
import Mathlib.Data.Finset.Card

/-!
# The number of occurrences of a script name

The count of a script is the number of positions at which its name occurs in the text of the
document, overlaps included, and at least two (`positions`). It does not depend on the other
scripts, although their names may contain each other. The search goes through the text once and
reports each occurrence of each name (`ReportsEach`, `reportsEach_occurrences`). The tally of a name
is changed by the reports of this name only (`getD_counted`), and raising small counts leaves the
other ones alone (`getD_raised`).
-/

namespace DesignAudit.Script

open Markup Text

/-! ## Positions -/

/-- A text occurs in another one at a position. -/
def OccursAt (part text : List Char) (i : Nat) : Prop :=
  ∃ pre post, text = pre ++ (part ++ post) ∧ pre.length = i

variable {found : List (Nat × String)} {part text : List Char} {names : List String} {i last : Nat}
  {name : String}

theorem occursAt_iff :
    OccursAt part text i ↔ i < text.length + 1 ∧ part <+: text.drop i := by
  constructor
  · rintro ⟨pre, post, rfl, rfl⟩
    rw [List.drop_left]
    refine ⟨?_, post, rfl⟩
    simp only [List.length_append]
    omega
  · rintro ⟨hi, post, hpost⟩
    refine ⟨text.take i, post, ?_, ?_⟩
    · rw [hpost, List.take_append_drop]
    · rw [List.length_take]
      omega

instance (part text : List Char) (i : Nat) : Decidable (OccursAt part text i) :=
  decidable_of_iff _ occursAt_iff.symm

/-- The positions at which a text occurs in another one. -/
def positions (part text : List Char) : Finset Nat :=
  (Finset.range (text.length + 1)).filter (OccursAt part text)

theorem mem_positions :
    i ∈ positions part text ↔ OccursAt part text i := by
  rw [positions, Finset.mem_filter, Finset.mem_range, and_iff_right_iff_imp]
  exact fun h => (occursAt_iff.mp h).1

/-- A part that is not empty ends within the text. -/
theorem OccursAt.end_lt (h : OccursAt part text i)
    (hne : part ≠ []) : i + part.length - 1 < text.length := by
  obtain ⟨pre, post, rfl, rfl⟩ := h
  have := List.length_pos_of_ne_nil hne
  simp only [List.length_append]
  omega

/-- A part that is not empty occurs where what has been read up to its last character ends in it. -/
theorem exists_mem_positions_iff (hne : part ≠ []) :
    (∃ i ∈ positions part text, last = i + part.length - 1) ↔
      last < text.length ∧ part <:+ text.take (last + 1) := by
  have hlength := List.length_pos_of_ne_nil hne
  constructor
  · rintro ⟨i, hi, rfl⟩
    have hoccurs := mem_positions.mp hi
    refine ⟨hoccurs.end_lt hne, ?_⟩
    obtain ⟨pre, post, rfl, rfl⟩ := hoccurs
    have hend : pre.length + part.length - 1 + 1 = (pre ++ part).length := by
      rw [List.length_append]
      omega
    rw [hend, ← List.append_assoc, List.take_left]
    exact List.suffix_append pre part
  · rintro ⟨hlast, pre, hpre⟩
    have htaken := congrArg List.length hpre
    rw [List.length_append, List.length_take, Nat.min_eq_left hlast] at htaken
    refine ⟨pre.length, mem_positions.mpr ⟨pre, text.drop (last + 1), ?_, rfl⟩, by omega⟩
    rw [← List.append_assoc, hpre, List.take_append_drop]

/-! ## One pass for all names -/

/-- A search for several names reports each occurrence of each of them once, by the position of its
last character. -/
structure ReportsEach (names : List String) (text : List Char) (found : List (Nat × String)) :
    Prop where
  once : found.Nodup
  each : ∀ last name, (last, name) ∈ found ↔
    name ∈ names ∧ ∃ i ∈ positions name.toList text, last = i + name.toList.length - 1

/-- The names that end with the character read last. -/
def endingHere (names : List (List Char × String)) (i : Nat) (passed : List Char) :
    List (Nat × String) :=
  (names.filter (·.1.isPrefixOf passed)).map fun n => (i, n.2)

theorem foldl_endingHere (names : List (List Char × String)) (i : Nat) (passed : List Char)
    (found : List (Nat × String)) :
    names.foldl (fun f n => if n.1.isPrefixOf passed then (i, n.2) :: f else f) found =
      (endingHere names i passed).reverse ++ found := by
  induction names generalizing found with
  | nil => rfl
  | cons n names ih =>
    rw [List.foldl_cons, ih, endingHere, endingHere, List.filter_cons]
    split <;> simp

theorem endsFrom_eq_append (names : List (List Char × String)) (i : Nat)
    (passed rest : List Char) (found : List (Nat × String)) :
    endsFrom names i passed rest found = found.reverse ++ endsFrom names i passed rest [] := by
  induction rest generalizing i passed found with
  | nil => exact (List.append_nil _).symm
  | cons c rest ih =>
    rw [endsFrom, endsFrom, foldl_endingHere, foldl_endingHere, ih, ih _ _ (_ ++ []),
      List.reverse_append, List.append_nil, List.append_assoc]

theorem endsFrom_cons (names : List (List Char × String)) (i : Nat) (passed : List Char) (c : Char)
    (rest : List Char) :
    endsFrom names i passed (c :: rest) [] =
      endingHere names i (c :: passed) ++ endsFrom names (i + 1) (c :: passed) rest [] := by
  rw [endsFrom, foldl_endingHere, endsFrom_eq_append, List.append_nil, List.reverse_reverse]

/-- The search finds each name wherever the characters read so far end in it. -/
theorem mem_endsFrom {names : List (List Char × String)} {passed rest : List Char} :
    (last, name) ∈ endsFrom names i passed rest [] ↔ ∃ k < rest.length, last = i + k ∧
      ∃ n ∈ names, n.2 = name ∧ n.1 <+: (rest.take (k + 1)).reverse ++ passed := by
  induction rest generalizing i passed with
  | nil => simp [endsFrom]
  | cons c rest ih =>
    have hhere : (last, name) ∈ endingHere names i (c :: passed) ↔
        last = i ∧ ∃ n ∈ names, n.2 = name ∧ n.1 <+: c :: passed := by
      simp only [endingHere, List.mem_map, List.mem_filter, List.isPrefixOf_iff_prefix,
        Prod.mk.injEq]
      constructor
      · rintro ⟨n, ⟨hn, hstarts⟩, rfl, hname⟩
        exact ⟨rfl, n, hn, hname, hstarts⟩
      · rintro ⟨rfl, n, hn, hname, hstarts⟩
        exact ⟨n, ⟨hn, hstarts⟩, rfl, hname⟩
    rw [endsFrom_cons, List.mem_append, hhere, ih]
    constructor
    · rintro (⟨rfl, hn⟩ | ⟨k, hk, rfl, hn⟩)
      · exact ⟨0, Nat.succ_pos _, rfl, hn⟩
      · refine ⟨k + 1, Nat.succ_lt_succ hk, by omega, ?_⟩
        simpa [List.take_succ_cons] using hn
    · rintro ⟨k, hk, rfl, hn⟩
      cases k with
      | zero => exact .inl ⟨rfl, hn⟩
      | succ k =>
        refine .inr ⟨k, Nat.lt_of_succ_lt_succ hk, by omega, ?_⟩
        simpa [List.take_succ_cons] using hn

/-- An occurrence that is found before another one ends before it, or it is of another name. -/
def FoundBefore (x y : Nat × String) : Prop := x.1 < y.1 ∨ x.1 = y.1 ∧ x.2 ≠ y.2

theorem endsFrom_pairwise {names : List (List Char × String)} (hnodup : (names.map (·.2)).Nodup)
    (i : Nat) (passed rest : List Char) :
    (endsFrom names i passed rest []).Pairwise FoundBefore := by
  induction rest generalizing i passed with
  | nil => exact .nil
  | cons c rest ih =>
    rw [endsFrom_cons, List.pairwise_append]
    refine ⟨?_, ih _ _, ?_⟩
    · rw [endingHere, List.pairwise_map]
      exact ((List.pairwise_map.mp hnodup).filter _).imp fun hne => .inr ⟨rfl, hne⟩
    · rintro x hx ⟨last, name⟩ hy
      obtain ⟨n, -, rfl⟩ := List.mem_map.mp hx
      obtain ⟨k, -, rfl, -⟩ := mem_endsFrom.mp hy
      exact .inl (by show i < i + 1 + k; omega)

theorem occurrences_pairwise (hnodup : names.Nodup) (text : List Char) :
    (occurrences names text).Pairwise FoundBefore := by
  refine endsFrom_pairwise ?_ 0 [] text
  rw [List.map_map]
  exact (List.map_id names).symm ▸ hnodup

theorem mem_occurrences :
    (last, name) ∈ occurrences names text ↔
      name ∈ names ∧ last < text.length ∧ name.toList <:+ text.take (last + 1) := by
  rw [occurrences, mem_endsFrom]
  simp only [List.mem_map, List.append_nil, Nat.zero_add]
  constructor
  · rintro ⟨k, hk, rfl, _, ⟨n, hn, rfl⟩, rfl, hends⟩
    exact ⟨hn, hk, List.reverse_prefix.mp hends⟩
  · rintro ⟨hname, hlast, hends⟩
    exact ⟨last, hlast, rfl, _, ⟨name, hname, rfl⟩, rfl, List.reverse_prefix.mpr hends⟩

/-- The search reports each occurrence of each name. -/
theorem reportsEach_occurrences (hnodup : names.Nodup)
    (hne : ∀ name ∈ names, name ≠ "") (text : List Char) :
    ReportsEach names text (occurrences names text) where
  once := by
    refine (occurrences_pairwise hnodup text).imp fun hbefore heq => ?_
    subst heq
    rcases hbefore with hlt | ⟨-, hname⟩
    · exact Nat.lt_irrefl _ hlt
    · exact hname rfl
  each := fun last name => by
    rw [mem_occurrences]
    refine and_congr_right fun hname => (exists_mem_positions_iff ?_).symm
    exact fun hnil => hne name hname (String.toList_eq_nil_iff.mp hnil)

/-! ## Tallies -/

/-- The tally of a name is changed by the occurrences of this name only. -/
theorem getD_counted (table : Option LineTable) (names : List String) (found : List (Nat × String))
    (name : String) :
    (counted table names found).getD name {} =
      (found.filter (·.2 == name)).foldl (fun t x => t.enter table x.2 x.1) {} := by
  have hstart : (Register.ofList (names.map (·, ({} : Tally)))).getD name {} = {} := by
    rw [Register.getD, Register.get?_ofList]
    cases hlookup : (names.map (·, ({} : Tally))).reverse.lookup name with
    | none => rfl
    | some t =>
      have hmem := Register.mem_of_lookup hlookup
      rw [List.mem_reverse, List.mem_map] at hmem
      obtain ⟨x, -, hx⟩ := hmem
      exact (Prod.mk.inj hx).2.symm
  have hfold := Register.getD_foldl_update (fun x : Nat × String => x.2)
    (fun x (t : Tally) => t.enter table x.2 x.1) {} found (.ofList (names.map (·, {}))) name
  rw [hstart] at hfold
  exact hfold

theorem count_foldl_enter (table : Option LineTable) (found : List (Nat × String)) (t : Tally) :
    (found.foldl (fun t x => t.enter table x.2 x.1) t).count = t.count + found.length := by
  induction found generalizing t with
  | nil => rfl
  | cons x found ih =>
    rw [List.foldl_cons, ih, List.length_cons]
    show t.count + 1 + found.length = _
    omega

theorem count_raise (tracing : Bool) (t : Tally) : (t.raise tracing).count = max 2 t.count := by
  rw [Tally.raise]
  split
  · show 2 = _
    omega
  · omega

/-- Tallies that have been raised stay as they are. -/
theorem raise_raise (tracing : Bool) (t : Tally) :
    (t.raise tracing).raise tracing = t.raise tracing := by
  rw [Tally.raise, if_neg]
  have := count_raise tracing t
  omega

/-- Raising the tallies of some names leaves the other ones alone. -/
theorem getD_raised (tracing : Bool) (names : List String) (tallies : Register Tally)
    (name : String) :
    (raised tracing names tallies).getD name {} =
      if name ∈ names then (tallies.getD name {}).raise tracing else tallies.getD name {} := by
  induction names generalizing tallies with
  | nil => rfl
  | cons n names ih =>
    rw [raised, List.foldl_cons, ← raised, ih, Register.update, Register.getD_insert]
    by_cases h : name = n
    · subst h
      simp [raise_raise]
    · simp [h]

theorem getD_tallied (table : Option LineTable) (found : List (Nat × String))
    (hname : name ∈ names) :
    (tallied table names found).getD name {} =
      ((counted table names found).getD name {}).raise table.isSome := by
  rw [tallied, getD_raised, if_pos hname]

/-- The reports of a name end where its occurrences do. -/
theorem ReportsEach.mem_lasts (h : ReportsEach names text found) (hname : name ∈ names) :
    last ∈ (found.filter (·.2 == name)).map (·.1) ↔
      ∃ i ∈ positions name.toList text, last = i + name.toList.length - 1 := by
  simp only [List.mem_map, List.mem_filter, beq_iff_eq, Prod.exists, exists_and_right,
    exists_eq_right]
  rw [h.each, and_iff_right hname]

/-- Of a search that reports each occurrence, a name has as many reports as positions. -/
theorem ReportsEach.length_filter (h : ReportsEach names text found)
    (hname : name ∈ names) (hne : name ≠ "") :
    (found.filter (·.2 == name)).length = (positions name.toList text).card := by
  have hlength : name.toList.length ≠ 0 := by
    rw [ne_eq, List.length_eq_zero_iff, String.toList_eq_nil_iff]
    exact hne
  have hnodup : ((found.filter (·.2 == name)).map (·.1)).Nodup := by
    refine (h.once.filter _).map_on fun x hx y hy hxy => Prod.ext hxy ?_
    have hx := beq_iff_eq.mp (List.mem_filter.mp hx).2
    have hy := beq_iff_eq.mp (List.mem_filter.mp hy).2
    rw [hx, hy]
  have hlasts : ((found.filter (·.2 == name)).map (·.1)).toFinset =
      (positions name.toList text).image (· + name.toList.length - 1) := by
    ext last
    rw [List.mem_toFinset, h.mem_lasts hname, Finset.mem_image]
    simp only [eq_comm]
  -- a name has a character, so that two occurrences do not end at the same one
  have hinjective : Set.InjOn (· + name.toList.length - 1) (positions name.toList text : Set Nat) := by
    intro i _ j _ hij
    simp only at hij
    omega
  calc (found.filter (·.2 == name)).length
      = ((found.filter (·.2 == name)).map (·.1)).length := (List.length_map _).symm
    _ = ((found.filter (·.2 == name)).map (·.1)).toFinset.card :=
        (List.toFinset_card_of_nodup hnodup).symm
    _ = (positions name.toList text).card := by
        rw [hlasts, Finset.card_image_of_injOn hinjective]

/-- The count of a name does not depend on the other names. -/
theorem ReportsEach.count_tallied (h : ReportsEach names text found) (table : Option LineTable)
    (hname : name ∈ names) (hne : name ≠ "") :
    ((tallied table names found).getD name {}).count =
      max 2 (positions name.toList text).card := by
  rw [getD_tallied table found hname, count_raise, getD_counted, count_foldl_enter,
    h.length_filter hname hne]
  exact congrArg (max 2) (Nat.zero_add _)

/-! ## The counts of the report -/

theorem ne_empty_of_mem_names {root : Site} (h : name ∈ (Index.of root).names) :
    name ≠ "" := by
  obtain ⟨d, hd, rfl⟩ := has_index_iff.mp (Register.mem_names_iff.mp h)
  exact (mem_namedDefinitions.mp hd).2.2

/-- The search of an audit reports each occurrence of each script. -/
theorem reportsEach_index (root : Site) (text : List Char) :
    ReportsEach (Index.of root).names text (occurrences (Index.of root).names text) :=
  reportsEach_occurrences (Register.nodup_names_ofList _) (fun _ => ne_empty_of_mem_names) text

theorem ReportsEach.congr {names names' : List String} (h : ReportsEach names text found)
    (hmem : ∀ name, name ∈ names ↔ name ∈ names') : ReportsEach names' text found :=
  ⟨h.once, fun last name => by rw [h.each, hmem]⟩

/-- **Counts are exact.** Let an audit write no error. Then each script that is defined has one row,
and the count of the row is the number of positions at which the name of the script occurs in the
text of the document, or two if there are fewer. The search of the audit reports each occurrence of
each name once, and any other search that does so gives the same counts, in whatever order it
reports. -/
theorem script_counts_exact [Marks] (debug : Bool) {raw : String}
    (hdone : ∀ line ∈ (audit debug raw).log,
      beginsWith "Error in UnusedScriptsCheck: " line = false) :
    ∃ root, openDocument "findall" raw = .ok root ∧
      ∃ rows : List Row, (audit debug raw).rows = rows.map Row.cells ∧
        (rows.map Row.name).Nodup ∧
        (∀ name, name ∈ rows.map Row.name ↔ ∃ d ∈ namedDefinitions root, definedName d = name) ∧
        (∀ r ∈ rows, r.cells.lookup "Script Name" = some (.text r.name) ∧
          r.cells.lookup "XML Count" =
            some (.whole (max 2 (positions r.name.toList raw.toList).card : Nat))) ∧
        ReportsEach (rows.map Row.name) raw.toList
          (occurrences (Index.of root).names raw.toList) ∧
        ∀ found, ReportsEach (rows.map Row.name) raw.toList found →
          ∀ table, ∀ r ∈ rows, ((tallied table (rows.map Row.name) found).getD r.name {}).count =
            max 2 (positions r.name.toList raw.toList).card := by
  obtain ⟨root, usages, hopen, husages⟩ := referenceUsages_of_no_error debug hdone
  have hperm := names_reportRows_perm debug hopen husages
  have hmem : ∀ name, name ∈ (reportRows debug raw).map Row.name ↔
      ∃ d ∈ namedDefinitions root, definedName d = name := by
    intro name
    rw [hperm.mem_iff, Index.names, Register.mem_names_iff, ← Index.has, has_index_iff]
  refine ⟨root, hopen, _, audit_rows debug raw,
    hperm.nodup_iff.mpr (Register.nodup_names_ofList _), hmem, fun r hr => ⟨rfl, ?_⟩,
    (reportsEach_index root raw.toList).congr fun name => hperm.mem_iff.symm,
    fun found hfound table r hr => ?_⟩
  · obtain ⟨_, -, name, hname, rfl⟩ := (mem_reportRows debug hopen).mp hr
    have hname := Register.mem_names_iff.mpr hname
    have hcount := (reportsEach_index root raw.toList).count_tallied
      (if debug then some (.of raw.toList) else none) hname (ne_empty_of_mem_names hname)
    exact congrArg (fun n : Nat => some (Sheet.Cell.whole n)) hcount
  · have hname : r.name ∈ (reportRows debug raw).map Row.name := List.mem_map_of_mem hr
    exact hfound.count_tallied table hname (ne_empty_of_mem_names (hperm.mem_iff.mp hname))

/-- A report with two scripts, the name of one being twice that of the other. -/
def doubledReport : String :=
  "<F><Script name='A'><Step/></Script><Script name='AA'><Step/></Script></F>"

def doubledTree : Node :=
  plain "F" []
    [plain "Script" [("name", "A")] [plain "Step" [] []],
     plain "Script" [("name", "AA")] [plain "Step" [] []]]

set_option maxRecDepth 20000 in
theorem read_doubled : read doubledReport = .ok (some doubledTree) :=
  (read_eq_of_toList String.toList_ofList (by decide) (by rfl) (by rfl)).trans (by rfl)

theorem doubled_done : ∀ line ∈ (audit false doubledReport).log,
    beginsWith "Error in UnusedScriptsCheck: " line = false := by
  have hopen := openDocument_of_read read_doubled "findall"
  have hdeep : DeepFields (Site.root doubledTree) := by decide
  obtain ⟨usages, husages⟩ :=
    exists_referenceUsages_iff.mpr (hdeep.allPlaced (above_of_openDocument hopen))
  exact fun line hline => beginsWith_eq_false_of_opensWith (by decide)
    (opens_of_mem_log false hopen (index_names_ne_nil (by decide)) husages line hline)

/-- The occurrences of the shorter name inside the longer one count. -/
theorem doubled_counts :
    ∃ a ∈ (audit false doubledReport).rows, ∃ b ∈ (audit false doubledReport).rows,
      a.lookup "Script Name" = some (.text "A") ∧ a.lookup "XML Count" = some (.whole 3) ∧
      b.lookup "Script Name" = some (.text "AA") ∧ b.lookup "XML Count" = some (.whole 2) := by
  obtain ⟨root, hopen, rows, hrows, -, hmem, hcount, -⟩ := script_counts_exact false doubled_done
  obtain rfl : Site.root doubledTree = root :=
    Except.ok.inj ((openDocument_of_read read_doubled "findall").symm.trans hopen)
  obtain ⟨a, ha, haname⟩ := List.mem_map.mp ((hmem "A").mpr (by decide))
  obtain ⟨b, hb, hbname⟩ := List.mem_map.mp ((hmem "AA").mpr (by decide))
  have htext : doubledReport.toList = _ := String.toList_ofList
  have hthree : (positions "A".toList doubledReport.toList).card = 3 := by
    rw [htext]
    decide +kernel
  have hone : (positions "AA".toList doubledReport.toList).card = 1 := by
    rw [htext]
    decide +kernel
  have hacount := hcount a ha
  have hbcount := hcount b hb
  rw [haname, hthree] at hacount
  rw [hbname, hone] at hbcount
  rw [hrows]
  exact ⟨a.cells, List.mem_map_of_mem ha, b.cells, List.mem_map_of_mem hb, hacount.1, hacount.2,
    hbcount.1, hbcount.2⟩

end DesignAudit.Script
