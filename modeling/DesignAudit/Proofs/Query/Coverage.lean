import DesignAudit.Proofs.Markup.Below
import DesignAudit.Proofs.Markup.Reader
import DesignAudit.Proofs.Query.Report

/-!
# Which calls of queries the report shows

A calculation outside of layout objects is read by itself, and no call in it is lost. A calculation
inside an object is left to the object, and the object shows one calculation only: the first with a
query among the first ones of four places. `call_reported_iff` says which calls have a row, and
`mem_rowsInOrder_iff`, `readAlone_iff` and `chooses_iff` say how a row comes about.
-/

namespace DesignAudit.Query

open Markup Text Layout Sheet
open Traversal

/-! ## Calls and their rows -/

/-- A calculation that begins with a call of a query. -/
structure OpensWithCall (sql : String) : Prop where
  begins : beginsWith "ExecuteSQL" sql = true
  calls : hasQuery sql.toList = true

/-- The report has a row with a calculation. -/
def Reported [SetOrder] (raw sql : String) : Prop :=
  ∃ row ∈ (search raw).rows, row.lookup "SQL Text" = some (.text sql)

/-- Whether the path of a node leads through a layout object. -/
def inObject (s : Site) : Bool :=
  has "> Object >" (pathText s) || has "> ExternalObject >" (pathText s)

/-- A node whose own text is read: a calculation only outside of objects, and no text that merely
repeats one. -/
structure ReadAlone (s : Site) (sql : String) : Prop where
  text : s.node.text.map trim = some sql
  outside : s.tag = "Calculation" → inObject s = false
  original : s.tag ∉ ["StepText", "DisplayCalculation"]

/-- A layout object whose place can be told. -/
structure PlacedObject (o : Site) : Prop where
  object : o.tag ∈ ["Object", "ExternalObject"]
  place : ∃ position, placeText ((o.childrenNamed "Bounds").head?.map (·.node)) = .ok position

/-- An object shows a calculation: of the places where it looks for one, the first whose calculation
mentions a query has this calculation. -/
structure Chooses (o : Site) (sql : String) : Prop extends PlacedObject o where
  first : ∃ before c use t after,
    objectCalculations o (objectType o) = before ++ (some c, use) :: after ∧
    (∀ p ∈ before, ∀ d, p.1 = some d → queryText? d.node = none) ∧
    queryText? c.node = some t ∧ trim t = sql

/-! ## From nodes to rows -/

/-- A row is that of a node's own text, or that of an object. -/
theorem mem_rowsInOrder_iff [SetOrder] {schema : Schema} {root : Site} {rows : List Row} {r : Row}
    (h : rowsInOrder schema root = .ok rows) :
    r ∈ rows ↔ ∃ s ∈ root :: root.below, textRow? schema s = .ok (some r) ∨
      s.tag ∈ ["Object", "ExternalObject"] ∧ objectRow? schema s = some r := by
  obtain ⟨rowss, hrowss, h⟩ := bind_eq_ok_iff.mp h
  rw [pure_eq_ok_iff] at h
  rw [← h, List.mem_flatten]
  constructor
  · rintro ⟨rs, hmem, hr⟩
    obtain ⟨s, hs, hrs⟩ := (mem_of_mapM_eq_ok hrowss).mp hmem
    exact ⟨s, hs, (mem_rowsAt_iff hrs).mp hr⟩
  · rintro ⟨s, hs, hr⟩
    obtain ⟨rs, hrs⟩ := exists_mapM_eq_ok_iff.mp ⟨rowss, hrowss⟩ s hs
    exact ⟨rs, (mem_of_mapM_eq_ok hrowss).mpr ⟨s, hs, hrs⟩, (mem_rowsAt_iff hrs).mpr hr⟩

/-- Where the rows are found, each node either has no text to be read or has a row for it. -/
theorem exists_textRow?_of_rowsInOrder [SetOrder] {schema : Schema} {root : Site} {rows : List Row}
    (h : rowsInOrder schema root = .ok rows) :
    ∀ s ∈ root :: root.below, ∃ own, textRow? schema s = .ok own := by
  intro s hs
  obtain ⟨rowss, hrowss, -⟩ := bind_eq_ok_iff.mp h
  obtain ⟨rs, hrs⟩ := exists_mapM_eq_ok_iff.mp ⟨rowss, hrowss⟩ s hs
  obtain ⟨own, hown, -⟩ := bind_eq_ok_iff.mp hrs
  exact ⟨own, hown⟩

/-- The calculation of a row, empty where none was read. -/
def Row.sql (r : Row) : String := (r.reading.map (·.sql)).getD ""

theorem lookup_sqlText (schema : Schema) (r : Row) :
    (r.cells schema).lookup "SQL Text" = some (.text r.sql) := by
  rfl

theorem reported_iff [SetOrder] {raw sql : String} {root : Site} {rows : List Row}
    (hopen : openDocument "findall" (replace "??" "*" raw) = .ok root)
    (hrows : rowsInOrder (Schema.ofRoot root) root = .ok rows) :
    Reported raw sql ↔ ∃ r ∈ rows, r.sql = sql := by
  simp only [Reported, mem_search_rows_iff hopen hrows]
  constructor
  · rintro ⟨_, ⟨r, hr, rfl⟩, hsql⟩
    rw [lookup_sqlText] at hsql
    exact ⟨r, hr, Cell.text.inj (Option.some.inj hsql)⟩
  · rintro ⟨r, hr, rfl⟩
    exact ⟨_, ⟨r, hr, rfl⟩, lookup_sqlText _ r⟩

/-! ## What a node's own text gives -/

theorem infix_of_trim (t : String) : (trim t).toList <:+: t.toList := by
  obtain ⟨xs, ys, heq, -, -⟩ := exists_trimChars_eq isBlank t.toList
  rw [trim, String.toList_ofList]
  exact ⟨xs, ys, by rw [List.append_assoc, ← heq]⟩

/-- A text that opens with a call after trimming mentions a query. -/
theorem queryText?_of_opens {n : Node} {t : String} (ht : n.text = some t)
    (h : OpensWithCall (trim t)) : queryText? n = some t := by
  have hhas : has "ExecuteSQL" t = true := by
    rw [has, hasPart_iff]
    exact (beginsWith_iff.mp h.begins).isInfix.trans (infix_of_trim t)
  rw [queryText?, ht, Option.filter_some, if_pos hhas]

/-- A call is passed over only in a calculation inside an object, or where it is repeated. -/
theorem isRead_iff {s : Site} {sql : String} (h : OpensWithCall sql) :
    isRead s (pathText s) sql = true ↔
      (s.tag = "Calculation" → inObject s = false) ∧
        s.tag ∉ ["StepText", "DisplayCalculation"] := by
  have hcount : beginsWith "PatternCount" sql = false :=
    beginsWith_eq_false_of_clash "ExecuteSQL" h.begins (by decide)
  have hif : beginsWith "If [" sql = false :=
    beginsWith_eq_false_of_clash "ExecuteSQL" h.begins (by decide)
  rw [isRead, h.calls, h.begins, hcount, hif, ← inObject]
  by_cases hcalc : s.tag = "Calculation"
  · simp [hcalc]
  · simp [hcalc]

/-- A node has a row of its own with a call exactly if its text is read. -/
theorem readAlone_iff [SetOrder] {schema : Schema} {s : Site} {sql : String} {own : Option Row}
    (h : OpensWithCall sql) (hown : textRow? schema s = .ok own) :
    (∃ r, own = some r ∧ r.sql = sql) ↔ ReadAlone s sql := by
  rw [textRow?] at hown
  constructor
  · rintro ⟨r, rfl, hsql⟩
    split at hown
    · cases hown
    · rename_i t ht
      dsimp only at hown
      split at hown
      · rename_i hread
        obtain ⟨place, -, hown⟩ := bind_eq_ok_iff.mp hown
        rw [pure_eq_ok_iff, Option.some_inj] at hown
        obtain rfl : trim t = sql := by rw [← hsql, ← hown]; rfl
        obtain ⟨houtside, horiginal⟩ := (isRead_iff h).mp hread
        have htext : s.node.text = some t := (Option.filter_eq_some_iff.mp ht).1
        exact ⟨by rw [htext]; rfl, houtside, horiginal⟩
      · cases hown
  · intro halone
    obtain ⟨t, ht, rfl⟩ := Option.map_eq_some_iff.mp halone.text
    rw [queryText?_of_opens ht h] at hown
    dsimp only at hown
    rw [if_pos ((isRead_iff h).mpr ⟨halone.outside, halone.original⟩)] at hown
    obtain ⟨place, -, hown⟩ := bind_eq_ok_iff.mp hown
    exact ⟨_, (pure_eq_ok_iff.mp hown).symm, rfl⟩

/-! ## What an object gives -/

theorem exists_objectQuery?_iff {o : Site} {sql : String} :
    (∃ x, objectQuery? o (objectType o) = some x ∧ x.2.1 = sql) ↔
      ∃ before c use t after,
        objectCalculations o (objectType o) = before ++ (some c, use) :: after ∧
        (∀ p ∈ before, ∀ d, p.1 = some d → queryText? d.node = none) ∧
        queryText? c.node = some t ∧ trim t = sql := by
  simp only [objectQuery?, List.findSome?_eq_some_iff, Option.bind_eq_some_iff,
    Option.bind_eq_none_iff, Option.map_eq_some_iff, Option.map_eq_none_iff]
  constructor
  · rintro ⟨_, ⟨before, ⟨_, use⟩, after, heq, ⟨c, rfl, t, ht, rfl⟩, hbefore⟩, rfl⟩
    exact ⟨before, c, use, t, after, heq, hbefore, ht, rfl⟩
  · rintro ⟨before, c, use, t, after, heq, hbefore, ht, rfl⟩
    exact ⟨_, ⟨before, (some c, use), after, heq, ⟨c, rfl, t, ht, rfl⟩, hbefore⟩, rfl⟩

/-- An object has a row with a call exactly if it shows the call. An object at an infinite distance
has a row too, but without any calculation. -/
theorem chooses_iff [SetOrder] {schema : Schema} {o : Site} {sql : String} (h : OpensWithCall sql) :
    (o.tag ∈ ["Object", "ExternalObject"] ∧ ∃ r, objectRow? schema o = some r ∧ r.sql = sql) ↔
      Chooses o sql := by
  have hne : sql ≠ "" := by
    rintro rfl
    exact absurd h.begins (by decide)
  rw [objectRow?]
  constructor
  · rintro ⟨hobject, r, hr, hsql⟩
    dsimp only at hr
    split at hr
    · rw [← hsql, ← Option.some.inj hr] at hne
      exact absurd rfl hne
    · rename_i position hplace
      obtain ⟨x, hx, rfl⟩ := Option.map_eq_some_iff.mp hr
      exact ⟨⟨hobject, position, hplace⟩, exists_objectQuery?_iff.mp ⟨x, hx, hsql⟩⟩
  · rintro ⟨⟨hobject, position, hplace⟩, hfirst⟩
    obtain ⟨x, hx, hsql⟩ := exists_objectQuery?_iff.mpr hfirst
    refine ⟨hobject, ?_⟩
    rw [hplace]
    dsimp only
    rw [hx]
    exact ⟨_, rfl, hsql⟩

instance (s : Site) (sql : String) : Decidable (ReadAlone s sql) :=
  decidable_of_iff (s.node.text.map trim = some sql ∧
      (s.tag = "Calculation" → inObject s = false) ∧ s.tag ∉ ["StepText", "DisplayCalculation"])
    ⟨fun h => ⟨h.1, h.2.1, h.2.2⟩, fun h => ⟨h.text, h.outside, h.original⟩⟩

instance (o : Site) : Decidable (PlacedObject o) :=
  decidable_of_iff (o.tag ∈ ["Object", "ExternalObject"] ∧
      (placeText ((o.childrenNamed "Bounds").head?.map (·.node))).isOk = true)
    ⟨fun h => ⟨h.1, isOk_iff.mp h.2⟩, fun h => ⟨h.object, isOk_iff.mpr h.place⟩⟩

instance (o : Site) (sql : String) : Decidable (Chooses o sql) :=
  decidable_of_iff (PlacedObject o ∧
      ∃ x ∈ objectQuery? o (objectType o), x.2.1 = sql)
    ⟨fun h => ⟨h.1, exists_objectQuery?_iff.mp h.2⟩,
     fun h => ⟨h.toPlacedObject, exists_objectQuery?_iff.mpr h.first⟩⟩

/-- An object with a single calculation shows it. -/
theorem chooses_of_single {o c : Site} {t : String} (ho : PlacedObject o)
    (hsingle : o.all "Calculation" = [c]) (ht : queryText? c.node = some t) :
    Chooses o (trim t) := by
  have hdown : ∀ name d, (o.down [name, "Calculation"]).head? = some d → d = c := by
    intro name d hd
    have hmem := Site.mem_all_of_mem_down [name] (List.mem_of_mem_head? hd)
    rwa [hsingle, List.mem_singleton] at hmem
  have hfirst : o.first? "Calculation" = some c := by
    rw [Site.first?, ← List.head?_filter, ← Site.all, hsingle, List.head?_cons]
  -- the two places that are looked at before hold this calculation or none
  have hquery : ∃ use, objectQuery? o (objectType o) = some (c, trim t, use) := by
    rw [objectQuery?, objectCalculations]
    cases hhide : (o.down ["HideCondition", "Calculation"]).head? with
    | some d =>
      obtain rfl := hdown _ d hhide
      exact ⟨"Hide", by simp [ht]⟩
    | none =>
      cases hformat : (o.down ["ConditionalFormatting", "Calculation"]).head? with
      | some d =>
        obtain rfl := hdown _ d hformat
        exact ⟨"Conditional", by simp [ht]⟩
      | none =>
        exact ⟨if objectType o == "WebViewer" then "WebViewer" else "Calculation",
          by simp [hfirst, ht]⟩
  obtain ⟨use, hquery⟩ := hquery
  exact ⟨ho, exists_objectQuery?_iff.mp ⟨_, hquery, rfl⟩⟩

/-! ## Coverage -/

/-- The report has a row with a call exactly if some node is read by itself, or some object shows it. -/
theorem reported_iff_exists [SetOrder] {raw sql : String} {root : Site} {rows : List Row}
    (hopen : openDocument "findall" (replace "??" "*" raw) = .ok root)
    (hrows : rowsInOrder (Schema.ofRoot root) root = .ok rows) (h : OpensWithCall sql) :
    Reported raw sql ↔ ∃ s ∈ root :: root.below, ReadAlone s sql ∨ Chooses s sql := by
  rw [reported_iff hopen hrows]
  simp only [mem_rowsInOrder_iff hrows]
  constructor
  · rintro ⟨r, ⟨s, hs, hown | hobject⟩, hsql⟩
    · exact ⟨s, hs, .inl ((readAlone_iff h hown).mp ⟨r, rfl, hsql⟩)⟩
    · exact ⟨s, hs, .inr ((chooses_iff h).mp ⟨hobject.1, r, hobject.2, hsql⟩)⟩
  · rintro ⟨s, hs, halone | hchooses⟩
    · obtain ⟨own, hown⟩ := exists_textRow?_of_rowsInOrder hrows s hs
      obtain ⟨r, rfl, hsql⟩ := (readAlone_iff h hown).mpr halone
      exact ⟨r, ⟨s, hs, .inl hown⟩, hsql⟩
    · obtain ⟨hobject, r, hr, hsql⟩ := (chooses_iff h).mpr hchooses
      exact ⟨r, ⟨s, hs, .inr ⟨hobject, hr⟩⟩, hsql⟩

/-- **Which calls are reported.** Where the search ends without a fault, a calculation that opens with a
call of a query has a row if it stands outside of layout objects, or is the only calculation of an
object whose place can be told. In general it has a row exactly if some object shows it, or if it
stands where it is read by itself; every other call is lost. -/
theorem call_reported_iff [SetOrder] {raw t : String} {root c : Site} {found : List Sheet.Row}
    (hopen : openDocument "findall" (replace "??" "*" raw) = .ok root)
    (hdone : rowsOf raw = .ok found) (hc : c ∈ root :: root.below) (htag : c.tag = "Calculation")
    (htext : c.node.text = some t) (hcall : OpensWithCall (trim t)) :
    (inObject c = false → Reported raw (trim t)) ∧
    (∀ o ∈ root :: root.below, PlacedObject o → o.all "Calculation" = [c] →
      Reported raw (trim t)) ∧
    (Reported raw (trim t) ↔
      ∃ s ∈ root :: root.below, ReadAlone s (trim t) ∨ Chooses s (trim t)) := by
  obtain ⟨rows, hrows⟩ : ∃ rows, rowsInOrder (Schema.ofRoot root) root = .ok rows := by
    obtain ⟨root', hopen', hdone⟩ := bind_eq_ok_iff.mp hdone
    obtain rfl := Except.ok.inj (hopen.symm.trans hopen')
    obtain ⟨rows, hrows, -⟩ := bind_eq_ok_iff.mp hdone
    exact ⟨rows, hrows⟩
  have hreported := reported_iff_exists hopen hrows hcall
  refine ⟨fun houtside => ?_, fun o ho hplaced hsingle => ?_, hreported⟩
  · have halone : ReadAlone c (trim t) :=
      ⟨by rw [htext]; rfl, fun _ => houtside, by rw [htag]; decide⟩
    exact hreported.mpr ⟨c, hc, .inl halone⟩
  · exact hreported.mpr ⟨o, ho, .inr (chooses_of_single hplaced hsingle
      (queryText?_of_opens htext hcall))⟩

/-- A calculation that runs a query for a field. -/
def callFor (field : String) : String := "ExecuteSQL ( \"SELECT " ++ field ++ " FROM T\" )"

/-- A document with one object, which is hidden by a query for `a` and formatted by one for `b`. -/
def formattedReport : String :=
  "<F><Layout name='L'><Object><HideCondition><Calculation>" ++
  "ExecuteSQL ( \"SELECT a FROM T\" )</Calculation></HideCondition><ConditionalFormatting>" ++
  "<Calculation>ExecuteSQL ( \"SELECT b FROM T\" )</Calculation></ConditionalFormatting>" ++
  "</Object></Layout></F>"

def formattedTree : Node :=
  plain "F" []
    [plain "Layout" [("name", "L")]
      [plain "Object" []
        [plain "HideCondition" [] [calculationOf (callFor "a")],
         plain "ConditionalFormatting" []
          [calculationOf (callFor "b")]]]]

set_option maxRecDepth 20000 in
theorem read_formatted : read formattedReport = .ok (some formattedTree) :=
  (read_eq_of_toList (toList_append_of (toList_three _ _ _) String.toList_ofList) (by decide)
    (by rfl) (by rfl)).trans (by rfl)

theorem replace_formatted : replace "??" "*" formattedReport = formattedReport :=
  replace_eq_self (toList_append_of (toList_three _ _ _) String.toList_ofList) (by decide +kernel)

theorem open_formatted :
    openDocument "findall" (replace "??" "*" formattedReport) = .ok (Site.root formattedTree) := by
  rw [replace_formatted]
  exact openDocument_of_read read_formatted "findall"

theorem formatted_done : ∃ found, rowsOf formattedReport = .ok found :=
  ⟨_, bind_eq_ok_iff.mpr ⟨_, open_formatted, rfl⟩⟩

theorem formatted_opens : ∀ field ∈ ["a", "b"], OpensWithCall (trim (callFor field)) := by
  have hbegins : ∀ field ∈ ["a", "b"], beginsWith "ExecuteSQL" (trim (callFor field)) = true ∧
      hasQuery (trim (callFor field)).toList = true := by
    decide +kernel
  intro field hfield
  exact ⟨(hbegins field hfield).1, (hbegins field hfield).2⟩

/-- In `formattedReport` the call that hides the object has a row, and the one that formats it is
lost. -/
theorem formatted_call_lost :
    OpensWithCall (trim (callFor "b")) ∧ Reported formattedReport (trim (callFor "a")) ∧
      ¬ Reported formattedReport (trim (callFor "b")) := by
  obtain ⟨found, hdone⟩ := formatted_done
  have hreported : ∀ i (h : i < ((Site.root formattedTree).all "Calculation").length) field,
      field ∈ ["a", "b"] →
      (((Site.root formattedTree).all "Calculation").get ⟨i, h⟩).node.text = some (callFor field) →
      (Reported formattedReport (trim (callFor field)) ↔
        ∃ s ∈ Site.root formattedTree :: (Site.root formattedTree).below,
          ReadAlone s (trim (callFor field)) ∨ Chooses s (trim (callFor field))) := by
    intro i h field hfield htext
    obtain ⟨hmem, htag⟩ := Site.mem_all.mp (List.get_mem _ ⟨i, h⟩)
    exact (call_reported_iff open_formatted hdone (List.mem_cons_of_mem _ hmem) htag htext
      (formatted_opens field hfield)).2.2
  have ha := hreported 0 (by decide +kernel) "a" (by decide) (by decide +kernel)
  have hb := hreported 1 (by decide +kernel) "b" (by decide) (by decide +kernel)
  refine ⟨formatted_opens "b" (by decide), ha.mpr (by decide +kernel), fun h => ?_⟩
  exact absurd (hb.mp h) (by decide +kernel)

end DesignAudit.Query
