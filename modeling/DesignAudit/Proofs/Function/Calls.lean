import DesignAudit.Proofs.Function.Rows
import DesignAudit.Proofs.Text.Pattern

/-!
# Calls between custom functions

The definitions of functions are searched for calls of other functions in the form in which they are
kept, which is trimmed and cut after a hundred characters. A text names a function where its name
stands between the edges of words or before a bracket (`mentions_iff`). What is put around a text
without a word or a bracket is not noticed (`mentions_append`, `mentions_of_append`), so neither
trimming nor the mark of a cut changes what is found; the cut itself does.

`callers_in_searched_part` says which callers of a function its row names: those whose definitions
name it in their first hundred characters.
-/

namespace DesignAudit.Function

open Markup Text Text.Pattern

/-- A text that begins with an opening bracket, possibly after blanks. -/
def OpensBracket (cs : List Char) : Prop :=
  ∃ blanks rest, cs = blanks ++ '(' :: rest ∧ ∀ c ∈ blanks, isBlank c = true

/-- A text names a function where the name stands at the edge of a word, and ends at one or before
an opening bracket. -/
theorem mentions_iff {name : String} {cs : List Char} :
    mentions name cs = true ↔
      ∃ before xs rest, cs = before ++ (xs ++ rest) ∧ Spells name xs ∧
        atWordEdge (passed none before) (xs ++ rest) = true ∧
        (OpensBracket rest ∨ atWordEdge (passed none (before ++ xs)) rest = true) := by
  rw [mentions, occursIn_iff, callPattern]
  simp only [reads_wordEdge_then, reads_word_then, passed_append]
  constructor
  · rintro ⟨before, cs, after, gs, rfl, hedge, xs, ys, rfl, hxs, hend⟩
    rw [List.append_assoc] at hedge
    refine ⟨before, xs, ys ++ after, by rw [List.append_assoc], hxs, hedge, ?_⟩
    rcases hend with hend | ⟨rfl, -, hend⟩
    · obtain ⟨blanks, zs, rfl, hblanks, hzs⟩ := reads_many_then.mp hend
      obtain ⟨rfl, -⟩ := reads_text.mp hzs
      exact .inl ⟨blanks, after, by rw [List.append_assoc]; rfl, hblanks⟩
    · exact .inr hend
  · rintro ⟨before, xs, rest, rfl, hxs, hedge, ⟨blanks, after, rfl, hblanks⟩ | hend⟩
    · refine ⟨before, xs ++ (blanks ++ ['(']), after, [], by simp, by simpa using hedge, xs,
        blanks ++ ['('], rfl, hxs, .inl ?_⟩
      exact reads_many_then.mpr ⟨blanks, ['('], rfl, hblanks, reads_text.mpr ⟨rfl, rfl⟩⟩
    · exact ⟨before, xs, rest, [], rfl, hedge, xs, [], (List.append_nil xs).symm, hxs,
        .inr ⟨rfl, rfl, hend⟩⟩

theorem opensBracket_append {tail : List Char} (htail : '(' ∉ tail) (cs : List Char) :
    OpensBracket (cs ++ tail) ↔ OpensBracket cs := by
  constructor
  · rintro ⟨blanks, rest, heq, hblanks⟩
    rcases List.append_eq_append_iff.mp heq with ⟨m, rfl, rfl⟩ | ⟨m, rfl, hbracket⟩
    · exact absurd (by simp) htail
    · cases m with
      | nil =>
        rw [List.nil_append] at hbracket
        exact absurd (hbracket ▸ List.mem_cons_self) htail
      | cons c m =>
        obtain ⟨rfl, -⟩ := List.cons.inj hbracket
        exact ⟨blanks, m, rfl, hblanks⟩
  · rintro ⟨blanks, rest, rfl, hblanks⟩
    exact ⟨blanks, rest ++ tail, by simp, hblanks⟩

section Surroundings

variable {outer : List Char} (hword : ∀ c ∈ outer, isWord c = false)

include hword

/-- What is behind a text counts for nothing, if it holds no word and no bracket. -/
theorem mentions_append (hbracket : '(' ∉ outer) (name : String) (cs : List Char) :
    mentions name (cs ++ outer) = mentions name cs := by
  rw [Bool.eq_iff_iff, mentions_iff, mentions_iff]
  constructor
  · rintro ⟨before, xs, rest, heq, hxs, hedge, hend⟩
    -- the name ends before the part that was added
    obtain ⟨m, rfl, rfl⟩ : ∃ m, cs = before ++ xs ++ m ∧ rest = m ++ outer := by
      rw [← List.append_assoc] at heq
      rcases List.append_eq_append_iff.mp heq with ⟨m, hbefore, rfl⟩ | ⟨m, hcs, hrest⟩
      · cases m with
        | nil => exact ⟨[], by simpa using hbefore.symm, rfl⟩
        | cons c m =>
          exfalso
          rw [List.forall_mem_append, List.forall_mem_cons] at hword
          rcases hend with ⟨blanks, after, rfl, -⟩ | hend
          · exact hbracket (by simp)
          · have hc : (some c).any isWord = false := hword.1.1
            have hrest : rest.head?.any isWord = false := any_head?_append hword.2 []
            rw [hbefore, passed_append, passed_cons,
              atWordEdge_eq_false (any_passed_eq_false hc hword.1.2) hrest] at hend
            cases hend
      · exact ⟨m, hcs, hrest⟩
    refine ⟨before, xs, m, List.append_assoc .., hxs, ?_, ?_⟩
    · rwa [← List.append_assoc, atWordEdge_append hword] at hedge
    · rwa [opensBracket_append hbracket, atWordEdge_append hword] at hend
  · rintro ⟨before, xs, rest, rfl, hxs, hedge, hend⟩
    refine ⟨before, xs, rest ++ outer, by simp, hxs, ?_, ?_⟩
    · rwa [← List.append_assoc, atWordEdge_append hword]
    · rwa [opensBracket_append hbracket, atWordEdge_append hword]

/-- What is in front of a text counts for nothing, if it holds no word. -/
theorem mentions_of_append (name : String) (cs : List Char) :
    mentions name (outer ++ cs) = mentions name cs := by
  rw [Bool.eq_iff_iff, mentions_iff, mentions_iff]
  constructor
  · rintro ⟨before, xs, rest, heq, hxs, hedge, hend⟩
    -- the name begins behind the part that was added
    obtain ⟨m, rfl, rfl⟩ : ∃ m, before = outer ++ m ∧ cs = m ++ (xs ++ rest) := by
      rcases List.append_eq_append_iff.mp heq with ⟨m, hbefore, hcs⟩ | ⟨m, rfl, hrest⟩
      · exact ⟨m, hbefore, hcs⟩
      · cases m with
        | nil => exact ⟨[], by simp, by simpa using hrest.symm⟩
        | cons c m =>
          exfalso
          rw [List.forall_mem_append, List.forall_mem_cons] at hword
          have hnone : (none : Option Char).any isWord = false := rfl
          have hc : (c :: m ++ cs).head?.any isWord = false := hword.2.1
          rw [hrest, atWordEdge_eq_false (any_passed_eq_false hnone hword.1) hc] at hedge
          cases hedge
    refine ⟨m, xs, rest, rfl, hxs, ?_, ?_⟩
    · rwa [atWordEdge_passed_append hword] at hedge
    · rwa [List.append_assoc, atWordEdge_passed_append hword] at hend
  · rintro ⟨before, xs, rest, rfl, hxs, hedge, hend⟩
    refine ⟨outer ++ before, xs, rest, by simp, hxs, ?_, ?_⟩
    · rwa [atWordEdge_passed_append hword]
    · rwa [List.append_assoc, atWordEdge_passed_append hword]

end Surroundings

/-- Blanks at the ends of a text make no difference. -/
theorem mentions_trim (name t : String) :
    mentions name (trim t).toList = mentions name t.toList := by
  obtain ⟨lead, tail, heq, hlead, htail⟩ := exists_trimChars_eq isBlank t.toList
  have hbracket : '(' ∉ tail := fun h => absurd (htail _ h) (by decide)
  rw [trim, String.toList_ofList, heq,
    mentions_of_append fun c hc => isWord_of_isBlank (hlead c hc),
    mentions_append (fun c hc => isWord_of_isBlank (htail c hc)) hbracket, ← heq]

/-- The part of a definition that is searched for calls: its first hundred characters, without the
blanks in front. -/
def searched (definition : String) : List Char := (trim definition).toList.take 100

/-- The mark of a definition that was cut counts for nothing. -/
theorem mentions_shortened (name definition : String) :
    mentions name (shortened definition).toList = mentions name (searched definition) := by
  rw [shortened, searched]
  split
  · rw [String.toList_append, keep, String.toList_ofList]
    exact mentions_append (by decide) (by decide) name _
  · rename_i hshort
    rw [List.take_of_length_le]
    rwa [String.length_toList, ← Nat.not_lt]

/-- A definition that is not cut is searched as a whole. -/
theorem mentions_searched_of_length {definition : String} (h : (trim definition).length ≤ 100)
    (name : String) : mentions name (searched definition) = mentions name definition.toList := by
  rw [searched, List.take_of_length_le (by rwa [String.length_toList]), mentions_trim]

theorem mentions_nil (name : String) : mentions name [] = false := by
  rw [Bool.eq_false_iff, ne_eq, mentions_iff]
  rintro ⟨before, xs, rest, heq, -, hedge, -⟩
  obtain ⟨rfl, hrest⟩ := List.nil_eq_append_iff.mp heq
  rw [hrest] at hedge
  cases hedge

/-! ## The callers of a function -/

def functionName (f : Site) : String := f.node.attrD "name" "Unknown Function"

/-- The text of the first calculation of a function. -/
def definitionText (f : Site) : String :=
  ((f.first? "Calculation").bind (·.node.written?)).getD ""

/-- The functions of all catalogues, in document order. -/
def functionElements (root : Site) : List Site :=
  root.allPath "CustomFunctionCatalog" ["CustomFunction"]

/-- A function is the last one of its name. -/
def IsLastOf (root f : Site) : Prop :=
  ∃ earlier later, functionElements root = earlier ++ f :: later ∧
    ∀ e ∈ later, functionName e ≠ functionName f

theorem IsLastOf.mem {root f : Site} (h : IsLastOf root f) : f ∈ functionElements root := by
  obtain ⟨earlier, later, hsplit, -⟩ := h
  rw [hsplit]
  exact List.mem_append_right _ List.mem_cons_self

theorem functions_eq (root : Site) :
    functions root =
      .ofList ((functionElements root).map fun f =>
        (functionName f, shortened (definitionText f))) := by
  refine congrArg Register.ofList (List.map_congr_left fun f _ => Prod.ext rfl ?_)
  have hempty : shortened "" = "" := by decide
  rw [definitionText]
  cases (f.first? "Calculation").bind (·.node.written?) with
  | none => simp only [Option.map_none, Option.getD_none, hempty]
  | some t => simp only [Option.map_some, Option.getD_some]

/-- Of the functions of one name the last one counts. -/
theorem get?_functions_eq_some_iff {root : Site} {name definition : String} :
    (functions root).get? name = some definition ↔
      ∃ f, IsLastOf root f ∧ functionName f = name ∧ shortened (definitionText f) = definition := by
  rw [functions_eq, ← List.filterMap_eq_map, Register.get?_ofList_filterMap]
  simp only [Option.some_inj, Prod.mk.injEq, Function.comp_apply, ne_eq, not_and]
  constructor
  · rintro ⟨earlier, f, later, hsplit, ⟨rfl, rfl⟩, hlater⟩
    exact ⟨f, ⟨earlier, later, hsplit, fun e he heq => hlater e he _ heq rfl⟩, rfl, rfl⟩
  · rintro ⟨f, ⟨earlier, later, hsplit, hlater⟩, rfl, rfl⟩
    exact ⟨earlier, f, later, hsplit, ⟨rfl, rfl⟩, fun e he _ heq => absurd heq (hlater e he)⟩

theorem mem_callersOf {known : Register String} (hnodup : known.names.Nodup)
    {name caller : String} :
    caller ∈ callersOf known name ↔
      ∃ definition, known.get? caller = some definition ∧
        mentions name definition.toList = true := by
  rw [callersOf, List.mem_map]
  constructor
  · rintro ⟨⟨caller, definition⟩, hmem, rfl⟩
    obtain ⟨hentry, hcond⟩ := List.mem_filter.mp hmem
    exact ⟨definition, Register.get?_of_mem_entries hnodup hentry,
      (Bool.and_eq_true_iff.mp hcond).2⟩
  · rintro ⟨definition, hget, hmentions⟩
    refine ⟨(caller, definition), List.mem_filter.mpr ⟨Register.mem_of_lookup hget, ?_⟩, rfl⟩
    rw [Bool.and_eq_true, bne_iff_ne]
    refine ⟨?_, hmentions⟩
    rintro rfl
    rw [show ("" : String).toList = [] from rfl, mentions_nil] at hmentions
    cases hmentions

/-- The last function of a name calls another one exactly if the part of its definition that is
searched names it. -/
theorem mem_callersOf_functions {root f : Site} (hf : IsLastOf root f) (name : String) :
    functionName f ∈ callersOf (functions root) name ↔
      mentions name (searched (definitionText f)) = true := by
  have hnodup : (functions root).names.Nodup := Register.nodup_names_ofList _
  rw [mem_callersOf hnodup, get?_functions_eq_some_iff.mpr ⟨f, hf, rfl, rfl⟩, ← mentions_shortened]
  simp

/-- The other functions that call a function, by name. -/
def otherCallers (known : Register String) (name : String) : List String :=
  sorted ((callers (calls known) name).filter (· != name))

section Known

variable {known : Register String} (hnodup : known.names.Nodup) {name : String}
  (hname : name ∈ known.names)

include hnodup hname

theorem mem_otherCallers {caller : String} :
    caller ∈ otherCallers known name ↔ caller ∈ callersOf known name ∧ caller ≠ name := by
  rw [otherCallers, sorted, mem_sortBy, List.mem_filter, mem_callers hnodup hname, bne_iff_ne]

omit hnodup hname in
/-- The row of a function that others call names them after its places. -/
theorem usedIn_activeRow (all : List Use) (h : otherCallers known name ≠ []) :
    (activeRow all (calls known) name).usedIn =
      trim (lines ((placesText (all.filter (·.function == name))).take 10) ++ "\nCalled by: " ++
        join ", " (otherCallers known name)) := by
  have hempty : (otherCallers known name).isEmpty = false := List.isEmpty_eq_false_iff.mpr h
  rw [otherCallers] at hempty ⊢
  simp only [activeRow, hempty, Bool.false_eq_true, if_false, String.append_assoc]

/-- A function that another one calls has the row of its uses. -/
theorem filter_rowsOf_of_otherCallers (root : Site) (h : otherCallers known name ≠ []) :
    (rowsOf known (uses known root) (calls known)).filter (·.function == name) =
      [activeRow (uses known root) (calls known) name] := by
  obtain ⟨caller, hcaller⟩ := List.exists_mem_of_ne_nil _ h
  obtain ⟨hcalls, hne⟩ := (mem_otherCallers hnodup hname).mp hcaller
  rw [filter_rowsOf hnodup hname, if_pos]
  constructor
  · have huse := filter_uses hnodup hname root ▸
      List.mem_append_right _ (List.mem_map_of_mem (f := fun c => callUse (name, c)) hcalls)
    exact List.mem_map.mpr ⟨_, List.mem_of_mem_filter huse, rfl⟩
  · rw [Bool.eq_false_iff, ne_eq, onlyItself_iff hnodup hname]
    exact fun halone => hne ((halone caller).mp hcalls)

/-- A function that no other one calls, and that no calculation outside of functions names, has the
row of an unused one. -/
theorem filter_rowsOf_of_unused {root : Site} (hcallers : otherCallers known name = [])
    (hvisits : visits root name = []) :
    (rowsOf known (uses known root) (calls known)).filter (·.function == name) =
      [unusedRow name] := by
  have hself : ∀ caller ∈ callersOf known name, caller = name := by
    intro caller hcaller
    by_contra hne
    have hmem := (mem_otherCallers hnodup hname).mpr ⟨hcaller, hne⟩
    rw [hcallers] at hmem
    cases hmem
  rw [filter_rowsOf hnodup hname, if_neg]
  rintro ⟨hused, honly⟩
  obtain ⟨u, hu, hfunction⟩ := List.mem_map.mp hused
  have huse : u ∈ (uses known root).filter (·.function == name) :=
    List.mem_filter.mpr ⟨hu, beq_iff_eq.mpr hfunction⟩
  rw [filter_uses hnodup hname, hvisits, List.map_nil, List.nil_append] at huse
  obtain ⟨caller, hcaller, -⟩ := List.mem_map.mp huse
  -- the one caller is the function itself
  have hitself : name ∈ callersOf known name := hself caller hcaller ▸ hcaller
  have halone : CalledByItselfAlone known name := fun other =>
    ⟨hself other, fun heq => heq ▸ hitself⟩
  rw [(onlyItself_iff hnodup hname).mpr halone] at honly
  cases honly

end Known

/-- **Which calls between functions are seen.** A function of the catalogue has one row. If other
functions are found to call it, the row shows it as active and names all of them, in ascending
order; if none is, and no calculation outside of functions names it, the row calls it unused. A
function is found to call it exactly if the first hundred characters of its definition, without the
blanks in front, name it. So a definition of at most a hundred characters is searched as a whole,
and of a longer one the calls behind the cut are lost. -/
theorem callers_in_searched_part {raw name : String} {root : Site}
    (hopen : openDocument "findall" raw = .ok root) (hknown : (functions root).has name = true) :
    ∃ row callers, (audit raw).rows.filter (isRowOf name) = [row] ∧
      callers.Pairwise (· < ·) ∧
      (∀ caller ∈ callers, caller ≠ name ∧ ∃ f, IsLastOf root f ∧ functionName f = caller) ∧
      (callers ≠ [] → row.lookup "Status" = some (.text "Active") ∧
        ∃ places, row.lookup "Used In" =
          some (.text (trim (places ++ "\nCalled by: " ++ join ", " callers)))) ∧
      (callers = [] → visits root name = [] →
        row.lookup "Status" = some (.text "Unused")) ∧
      ∀ f, IsLastOf root f → functionName f ≠ name →
        (functionName f ∈ callers ↔
          mentions name ((trim (definitionText f)).toList.take 100) = true) ∧
        ((trim (definitionText f)).length ≤ 100 →
          (functionName f ∈ callers ↔ mentions name (definitionText f).toList = true)) := by
  have hnodup : (functions root).names.Nodup := Register.nodup_names_ofList _
  have hname := Register.mem_names_iff.mpr hknown
  obtain ⟨r, hr⟩ : ∃ r, (rowsOf (functions root) (uses (functions root) root)
      (calls (functions root))).filter (·.function == name) = [r] := by
    rw [filter_rowsOf hnodup hname]
    split <;> exact ⟨_, rfl⟩
  refine ⟨r.cells, otherCallers (functions root) name, ?_,
    sorted_pairwise ((nodup_distinct _).filter _), ?_, ?_, ?_, ?_⟩
  · rw [audit_rows hopen, filter_isRowOf, hr]
    rfl
  · intro caller hcaller
    obtain ⟨hcalls, hne⟩ := (mem_otherCallers hnodup hname).mp hcaller
    obtain ⟨definition, hget, -⟩ := (mem_callersOf hnodup).mp hcalls
    obtain ⟨f, hf, hfname, -⟩ := get?_functions_eq_some_iff.mp hget
    exact ⟨hne, f, hf, hfname⟩
  · intro hcallers
    have hrow := filter_rowsOf_of_otherCallers hnodup hname root hcallers
    rw [hr] at hrow
    obtain rfl := List.singleton_inj.mp hrow
    exact ⟨rfl, _, congrArg (some <| Sheet.Cell.text ·) (usedIn_activeRow _ hcallers)⟩
  · intro hcallers hvisits
    have hrow := filter_rowsOf_of_unused hnodup hname hcallers hvisits
    rw [hr] at hrow
    obtain rfl := List.singleton_inj.mp hrow
    rfl
  · intro f hf hne
    have hmem : functionName f ∈ otherCallers (functions root) name ↔
        mentions name (searched (definitionText f)) = true := by
      rw [mem_otherCallers hnodup hname, mem_callersOf_functions hf]
      exact and_iff_left hne
    exact ⟨hmem, fun hshort => hmem.trans (by rw [mentions_searched_of_length hshort])⟩

/-- A report with a function that is called behind a long remark, and a function that is called in a
short definition. -/
def lateCallReport : String :=
  "<F><CustomFunctionCatalog><CustomFunction name='Gross'><Calculation>" ++
  "/*------------------------------------------------" ++
  "------------------------------------------------*/ Net ( 1 )" ++
  "</Calculation></CustomFunction><CustomFunction name='Net'><Calculation> Tax ( 0 )" ++
  "</Calculation></CustomFunction><CustomFunction name='Tax'/></CustomFunctionCatalog></F>"

def lateCallTree : Node :=
  let function (name definition : String) :=
    plain "CustomFunction" [("name", name)] [calculationOf definition]
  plain "F" []
    [plain "CustomFunctionCatalog" []
      [function "Gross" ("/*------------------------------------------------" ++
        "------------------------------------------------*/ Net ( 1 )"),
       function "Net" " Tax ( 0 )", plain "CustomFunction" [("name", "Tax")] []]]

set_option maxRecDepth 20000 in
theorem read_lateCall : read lateCallReport = .ok (some lateCallTree) :=
  (read_eq_of_toList (toList_append_of (toList_append_of (toList_three _ _ _) String.toList_ofList)
    String.toList_ofList) (by decide) (by rfl) (by rfl)).trans (by rfl)

/-- The call at the end of the long definition is lost, and the function that is called counts as
unused. That in the short one is seen. -/
theorem late_call_lost :
    (∃ f ∈ functionElements (Site.root lateCallTree), functionName f = "Gross" ∧
      mentions "Net" (definitionText f).toList = true) ∧
    (∃ row ∈ (audit lateCallReport).rows, isRowOf "Net" row = true ∧
      row.lookup "Status" = some (.text "Unused")) ∧
    (∃ row ∈ (audit lateCallReport).rows, isRowOf "Tax" row = true ∧
      row.lookup "Status" = some (.text "Active")) := by
  have hopen := openDocument_of_read read_lateCall "findall"
  have hknown : ∀ name ∈ ["Net", "Tax"],
      (functions (Site.root lateCallTree)).has name = true := by decide +kernel
  obtain ⟨net, netCallers, hnet, -, hothers, -, hunused, hseen⟩ :=
    callers_in_searched_part hopen (hknown "Net" (by decide))
  obtain ⟨tax, taxCallers, htax, -, -, hactive, -, hcalled⟩ :=
    callers_in_searched_part hopen (hknown "Tax" (by decide))
  have hnetmem := List.mem_filter.mp (hnet ▸ List.mem_singleton_self net)
  have htaxmem := List.mem_filter.mp (htax ▸ List.mem_singleton_self tax)
  refine ⟨by decide +kernel, ⟨net, hnetmem.1, hnetmem.2, hunused ?_ (by decide +kernel)⟩,
    tax, htaxmem.1, htaxmem.2, (hactive ?_).1⟩
  · -- nobody names the function in the part that is searched
    have hnone : ∀ f ∈ functionElements (Site.root lateCallTree),
        mentions "Net" ((trimChars isBlank (definitionText f).toList).take 100) = false := by
      decide +kernel
    rw [List.eq_nil_iff_forall_not_mem]
    intro caller hcaller
    obtain ⟨hne, f, hf, rfl⟩ := hothers caller hcaller
    have hfound := (hseen f hf hne).1.mp hcaller
    rw [trim, String.toList_ofList, hnone f hf.mem] at hfound
    cases hfound
  · have hlast : IsLastOf (Site.root lateCallTree)
        ((functionElements (Site.root lateCallTree)).get ⟨1, by decide⟩) :=
      ⟨[_], [_], rfl, by decide⟩
    exact List.ne_nil_of_mem (((hcalled _ hlast (by decide)).2 (by decide +kernel)).mpr
      (by decide +kernel))

end DesignAudit.Function
