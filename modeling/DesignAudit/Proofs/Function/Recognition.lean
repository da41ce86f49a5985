import DesignAudit.Proofs.Function.Calls
import DesignAudit.Proofs.Text.WordForms

/-!
# Which calls of a function are recognised

A function is looked for at the edge of a word, on the side where its name begins. `SeenAt` says at which
places of a text it is seen. A call behind a space is seen exactly if the name begins with a word
character (`seenAt_call_iff`); a name that begins with a sign is seen only behind a word character
(`SeenAt.behind_word`).

`call_recorded_iff` says which calculations of scripts are recorded as uses of a function that they
call.
-/

namespace DesignAudit.Function

open Markup Text Text.Pattern

variable {name : String} {before after : List Char}

/-- A function is seen at a place of a text, given by what stands before and behind it: its name begins
there, the place is the edge of a word, and the name ends before an opening bracket or at the edge of
a word. -/
def SeenAt (name : String) (before after : List Char) : Prop :=
  ∃ xs rest, after = xs ++ rest ∧ Spells name xs ∧
    atWordEdge (passed none before) after = true ∧
    (OpensBracket rest ∨ atWordEdge (passed none (before ++ xs)) rest = true)

/-- A text names a function exactly if the function is seen at some place of it. -/
theorem mentions_iff_seenAt {cs : List Char} :
    mentions name cs = true ↔ ∃ before after, cs = before ++ after ∧ SeenAt name before after := by
  rw [mentions_iff]
  constructor
  · rintro ⟨before, xs, rest, rfl, hxs, hedge, hend⟩
    exact ⟨before, xs ++ rest, rfl, xs, rest, rfl, hxs, hedge, hend⟩
  · rintro ⟨before, _, rfl, xs, rest, rfl, hxs, hedge, hend⟩
    exact ⟨before, xs, rest, rfl, hxs, hedge, hend⟩

theorem passed_none (cs : List Char) : passed none cs = cs.getLast? := by
  cases hlast : cs.getLast? with
  | none => rw [List.getLast?_eq_none_iff.mp hlast, passed_nil]
  | some c =>
    obtain ⟨cs, rfl⟩ := List.getLast?_eq_some_iff.mp hlast
    rw [passed_append, passed_cons, passed_nil]

/-- A call that no word character precedes is seen exactly if the name begins with one. -/
theorem seenAt_call_iff {h : Char} {t : List Char} (hname : name.toList = h :: t)
    (hbefore : before.getLast?.any isWord = false) (rest : List Char) :
    SeenAt name before (name.toList ++ '(' :: rest) ↔ isWord h = true := by
  have hedge : atWordEdge (passed none before) (name.toList ++ '(' :: rest) = isWord h := by
    rw [atWordEdge, passed_none, hbefore, hname]
    cases hh : isWord h <;> simp [hh]
  constructor
  · rintro ⟨xs, rest', -, -, hbegins, -⟩
    rwa [hedge] at hbegins
  · intro hword
    exact ⟨name.toList, '(' :: rest, rfl, spells_toList name, hedge.trans hword,
      .inl ⟨[], rest, rfl, by simp⟩⟩

/-- A name that begins with no word character is seen only behind one. -/
theorem SeenAt.behind_word {h : Char} {t : List Char} (hseen : SeenAt name before after)
    (hname : name.toList = h :: t) (hword : isWord h = false) (hiota : h.toNat ≠ iotaSubscript) :
    ∃ c, before.getLast? = some c ∧ isWord c = true := by
  obtain ⟨xs, rest, rfl, hspells, hedge, -⟩ := hseen
  rw [Spells, hname] at hspells
  obtain ⟨b, ys, hletter, -, rfl⟩ := List.forall₂_cons_left_iff.mp hspells
  have hb := isWord_eq_false_of_sameLetter hletter hiota hword
  rw [atWordEdge, passed_none] at hedge
  simp only [List.cons_append, List.head?_cons, Option.any_some, hb, Bool.bne_false] at hedge
  exact (Option.any_eq_true _ _).mp hedge

/-! ## Records -/

/-- The uses of a function in a document, in the order in which they are recorded. -/
def usageOf (root : Site) (name : String) : List Use :=
  (uses (functions root) root).filter (·.function == name)

/-- A calculation is recorded as a use of a function. -/
def Records (root : Site) (name : String) (c : Calculation) : Prop :=
  ⟨name, c.kind, c.location⟩ ∈ usesIn (functions root).names c

instance (root : Site) (name : String) (c : Calculation) : Decidable (Records root name c) :=
  inferInstanceAs (Decidable (_ ∈ _))

section Known

variable {root : Site} (hknown : (functions root).has name = true) {c : Calculation}

include hknown

/-- A calculation is recorded exactly if it names the function. -/
theorem records_iff : Records root name c ↔ mentions name c.text.toList = true := by
  have hnodup : (functions root).names.Nodup := Register.nodup_names_ofList _
  have hfilter := filter_usesIn hnodup (Register.mem_names_iff.mpr hknown) c
  have hmem : Records root name c ↔
      ⟨name, c.kind, c.location⟩ ∈ (usesIn (functions root).names c).filter (·.function == name) := by
    rw [List.mem_filter]
    exact (and_iff_left (beq_self_eq_true name)).symm
  rw [hmem, hfilter]
  split <;> simp_all

/-- The row of a function that is not called by itself alone counts its uses. -/
theorem exists_row_counting {raw : String} (hopen : openDocument "findall" raw = .ok root) :
    ∃ row, (audit raw).rows.filter (isRowOf name) = [row] ∧
      (¬ CalledByItselfAlone (functions root) name →
        row.lookup "Usage Count" = some (.whole (usageOf root name).length)) := by
  have hnodup : (functions root).names.Nodup := Register.nodup_names_ofList _
  have hname := Register.mem_names_iff.mpr hknown
  rw [audit_rows hopen, filter_isRowOf, filter_rowsOf hnodup hname]
  split
  · exact ⟨_, rfl, fun _ => rfl⟩
  · rename_i hunused
    refine ⟨_, rfl, fun halone => ?_⟩
    have hnone : usageOf root name = [] := by
      rw [usageOf, List.filter_eq_nil_iff]
      intro u hu hfunction
      refine hunused ⟨List.mem_map.mpr ⟨u, hu, beq_iff_eq.mp hfunction⟩, ?_⟩
      rw [Bool.eq_false_iff, ne_eq, onlyItself_iff hnodup hname]
      exact halone
    rw [hnone]
    rfl

end Known

theorem mem_usageOf {root : Site} {c : Calculation} (hc : c ∈ calculations root)
    (h : Records root name c) : ⟨name, c.kind, c.location⟩ ∈ usageOf root name :=
  List.mem_filter.mpr ⟨List.mem_append_left _ (List.mem_flatMap.mpr ⟨c, hc, h⟩),
    beq_self_eq_true name⟩

theorem kind_of_mem_scriptCalculations {root : Site} {c : Calculation}
    (hc : c ∈ scriptCalculations root) : c.kind = "Script" := by
  obtain ⟨script, -, hc⟩ := List.mem_flatMap.mp hc
  obtain ⟨site, -, hc⟩ := List.mem_flatMap.mp hc
  rw [calculation] at hc
  split at hc
  · rw [List.mem_singleton.mp hc]
  · cases hc

/-- **Which calls are recorded.** Let a calculation of a script call a function at its beginning or
behind a space. If the name of the function begins with a word character, the calculation is recorded
as a use of the function. If it begins with another character, such as a sign or the plus sign of a
pictograph, the call itself is not seen, and the calculation is recorded only if the function is seen
at another place of it, which is right behind a word character (the iota subscript apart, which is a
form of a letter). A calculation that is recorded has its
location among the uses of the function, and these are what the row of the function counts. -/
theorem call_recorded_iff {raw name : String} {root : Site}
    (hopen : openDocument "findall" raw = .ok root) (hknown : (functions root).has name = true)
    {h : Char} {t : List Char} (hname : name.toList = h :: t) {c : Calculation}
    (hc : c ∈ scriptCalculations root) {p s : List Char} (hp : p = [] ∨ p.getLast? = some ' ')
    (htext : c.text.toList = p ++ (name.toList ++ '(' :: s)) :
    (isWord h = true → Records root name c) ∧
    (isWord h = false →
      (Records root name c ↔ ∃ before after, c.text.toList = before ++ after ∧ before ≠ p ∧
        SeenAt name before after)) ∧
    (isWord h = false → h.toNat ≠ iotaSubscript → ∀ before after, SeenAt name before after →
      ∃ x, before.getLast? = some x ∧ isWord x = true) ∧
    (Records root name c → ⟨name, "Script", c.location⟩ ∈ usageOf root name) ∧
    ∃ row, (audit raw).rows.filter (isRowOf name) = [row] ∧
      (¬ CalledByItselfAlone (functions root) name →
        row.lookup "Usage Count" = some (.whole (usageOf root name).length)) := by
  have hbefore : p.getLast?.any isWord = false := by
    rcases hp with rfl | hp
    · rfl
    · rw [hp]
      decide
  have hcall := seenAt_call_iff hname hbefore s
  refine ⟨fun hword => ?_, fun hword => ?_, fun hword hiota before after hseen =>
    hseen.behind_word hname hword hiota, fun hrecords => ?_, exists_row_counting hknown hopen⟩
  · rw [records_iff hknown, mentions_iff_seenAt]
    exact ⟨p, _, htext, hcall.mpr hword⟩
  · rw [records_iff hknown, mentions_iff_seenAt]
    constructor
    · rintro ⟨before, after, hsplit, hseen⟩
      refine ⟨before, after, hsplit, ?_, hseen⟩
      rintro rfl
      -- at the call itself the function would be seen by a word character
      rw [List.append_cancel_left (hsplit.symm.trans htext), hcall, hword] at hseen
      cases hseen
    · rintro ⟨before, after, hsplit, -, hseen⟩
      exact ⟨before, after, hsplit, hseen⟩
  · have hcalculation : c ∈ calculations root := by
      simp only [calculations, List.mem_append]
      exact .inl (.inl (.inl (.inl hc)))
    have hmem := mem_usageOf hcalculation hrecords
    rwa [kind_of_mem_scriptCalculations hc] at hmem

/-- A report with a step that calls two functions, the name of one beginning with a sign. -/
def signReport : String :=
  "<F><CustomFunctionCatalog><CustomFunction name='#f'/><CustomFunction name='g'/>" ++
  "</CustomFunctionCatalog><Script name='S'><Step name='If' index='1'>" ++
  "<Calculation>#f( g(2))</Calculation></Step></Script></F>"

def signTree : Node :=
  plain "F" []
    [plain "CustomFunctionCatalog" []
      [plain "CustomFunction" [("name", "#f")] [], plain "CustomFunction" [("name", "g")] []],
     plain "Script" [("name", "S")]
      [plain "Step" [("name", "If"), ("index", "1")]
        [calculationOf "#f( g(2))"]]]

set_option maxRecDepth 20000 in
theorem read_sign : read signReport = .ok (some signTree) :=
  (read_eq_of_toList (toList_three _ _ _) (by decide) (by rfl) (by rfl)).trans (by rfl)

/-- The call of the function with the sign is not recorded, and its row counts no use. The call of the
other one is. -/
theorem sign_call_lost :
    ∃ c ∈ scriptCalculations (Site.root signTree), c.text.toList = "#f( g(2))".toList ∧
      ¬ Records (Site.root signTree) "#f" c ∧
      (∃ row ∈ (audit signReport).rows, isRowOf "#f" row = true ∧
        row.lookup "Usage Count" = some (.whole 0)) ∧
      ⟨"g", "Script", c.location⟩ ∈ usageOf (Site.root signTree) "g" := by
  have hopen := openDocument_of_read read_sign "findall"
  obtain ⟨c, hc⟩ : ∃ c, scriptCalculations (Site.root signTree) = [c] := ⟨_, rfl⟩
  have hmem : c ∈ scriptCalculations (Site.root signTree) := hc ▸ List.mem_singleton_self c
  have hlost : ∀ c ∈ scriptCalculations (Site.root signTree), c.text.toList = "#f( g(2))".toList ∧
      ¬ Records (Site.root signTree) "#f" c := by decide +kernel
  obtain ⟨htext, hnot⟩ := hlost c hmem
  have hknown : ∀ name ∈ ["#f", "g"], (functions (Site.root signTree)).has name = true := by
    decide +kernel
  obtain ⟨-, -, -, -, row, hrow, hcount⟩ := call_recorded_iff hopen (hknown "#f" (by decide)) rfl
    hmem (.inl rfl) (s := " g(2))".toList) htext
  obtain ⟨hrecords, -, -, hlisted, -⟩ := call_recorded_iff hopen (hknown "g" (by decide)) rfl
    hmem (p := "#f( ".toList) (s := "2))".toList) (.inr rfl) htext
  have hrowmem := List.mem_filter.mp (hrow ▸ List.mem_singleton_self row)
  have husage : usageOf (Site.root signTree) "#f" = [] := by decide +kernel
  have hcallers : callersOf (functions (Site.root signTree)) "#f" = [] := by decide +kernel
  refine ⟨c, hmem, htext, hnot, ⟨row, hrowmem.1, hrowmem.2, ?_⟩, hlisted (hrecords (by decide))⟩
  rw [hcount fun halone => ?_, husage]
  · rfl
  · have hself := (halone "#f").mpr rfl
    rw [hcallers] at hself
    cases hself

end DesignAudit.Function
