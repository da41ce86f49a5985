import DesignAudit.Proofs.Dangling.Tables

/-!
# Remarks in calculations

A remark of a calculation stands between `/*` and `*/`, or behind `//` on its line. `Zone.next` scans a
calculation for remarks, and `InRemark` says that a reference stands in one.

The audit of dangling references has one row for each reference that a calculation of a field or a
custom function makes to something unknown, but it looks at the beginning of the calculation alone: the
row tells of a remark exactly if the calculation opens with one. So each reference behind a remark with
which a calculation opens is told of as one in a remark, the active ones too
(`reference_commented_iff_opening`).
-/

namespace DesignAudit.Dangling

open Markup Text Text.Pattern Traversal

/-! ## The scan for remarks -/

/-- Where a scan of a calculation is: in the code, behind a slash in the code, in a remark to the end of
the line, in a remark up to its closing sign, or behind a star in such a remark. -/
inductive Zone where
  | code
  | slash
  | line
  | block
  | star
  deriving DecidableEq, Repr

def isLineEnd (c : Char) : Bool := c == '\n' || c == '\r'

/-- The scan takes a character. -/
def Zone.next : Zone → Char → Zone
  | code, c => if c = '/' then slash else code
  | slash, c => if c = '*' then block else if c = '/' then line else code
  | line, c => if isLineEnd c then code else line
  | block, c => if c = '*' then star else block
  | star, c => if c = '/' then code else if c = '*' then star else block

def Zone.isRemark : Zone → Bool
  | code | slash => false
  | line | block | star => true

/-- Where the scan is behind a text. -/
def zoneAfter (cs : List Char) : Zone := cs.foldl Zone.next .code

/-- A reference stands in a remark of a text. -/
def InRemark (reference t : List Char) : Prop :=
  ∃ before after, t = before ++ (reference ++ after) ∧ (zoneAfter before).isRemark = true

/-- A text opens with a remark, behind blanks at most. -/
def OpensWithRemark (t : List Char) : Prop :=
  ∃ sign ∈ ["/*", "//"], ∃ lead rest, (∀ c ∈ lead, isBlank c = true) ∧
    t = lead ++ (sign.toList ++ rest)

/-- A remark up to its end, and the end. -/
inductive Remark : List Char → List Char → Prop where
  | line {body : List Char} {c : Char} (stays : ∀ d ∈ body, isLineEnd d = false)
      (ends : isLineEnd c = true) : Remark ("//".toList ++ body) [c]
  | block {body : List Char} (stays : ¬ "*/".toList <:+: body) :
      Remark ("/*".toList ++ body) "*/".toList

/-- No remark begins in a text. -/
def Unremarked (cs : List Char) : Prop := ∀ sign ∈ ["/*", "//"], ¬ sign.toList <:+: cs

theorem inRemark_iff_exists_lt {reference t : List Char} :
    InRemark reference t ↔ ∃ i < t.length + 1, reference <+: t.drop i ∧
      (zoneAfter (t.take i)).isRemark = true := by
  constructor
  · rintro ⟨before, after, rfl, hzone⟩
    refine ⟨before.length, by rw [List.length_append]; omega, ?_, ?_⟩
    · rw [List.drop_left]
      exact List.prefix_append _ _
    · rwa [List.take_left]
  · rintro ⟨i, -, ⟨after, hafter⟩, hzone⟩
    exact ⟨t.take i, after, by rw [hafter, List.take_append_drop], hzone⟩

instance (cs : List Char) : Decidable (Unremarked cs) :=
  inferInstanceAs (Decidable (∀ sign ∈ ["/*", "//"], ¬ String.toList sign <:+: cs))

instance (reference t : List Char) : Decidable (InRemark reference t) :=
  decidable_of_iff _ inRemark_iff_exists_lt.symm

/-! Two zones make a loop when one leads to the other by a mark alone, and the other leaves the two
only by a character that ends the loop. The scan stays in a loop until the mark and such a character
stand side by side. -/

section Loop

variable {rest armed : Zone}

theorem foldl_next_loop (mark : Char) (ends : Char → Prop)
    (hrest : ∀ c, rest.next c = rest ∨ c = mark ∧ rest.next c = armed)
    (harmed : ∀ c, ¬ ends c → armed.next c = rest ∨ c = mark ∧ armed.next c = armed)
    {cs : List Char} (hcs : ∀ c, ends c → ¬ [mark, c] <:+: cs) {z : Zone}
    (hz : z = rest ∨ z = armed ∧ ∀ c, ends c → cs.head? ≠ some c) :
    cs.foldl Zone.next z = rest ∨ cs.foldl Zone.next z = armed := by
  induction cs generalizing z with
  | nil => exact hz.imp id And.left
  | cons c cs ih =>
    have hmore : ∀ d, ends d → ¬ [mark, d] <:+: cs := fun d hd hpart =>
      hcs d hd (hpart.trans (List.suffix_cons c cs).isInfix)
    -- behind the mark the next character does not end the loop
    have hbehind : c = mark → ∀ d, ends d → cs.head? ≠ some d := by
      rintro rfl d hd hhead
      obtain ⟨more, rfl⟩ := List.head?_eq_some_iff.mp hhead
      exact hcs d hd ⟨[], more, rfl⟩
    have hstep : z.next c = rest ∨ c = mark ∧ z.next c = armed := by
      obtain rfl | ⟨rfl, hhead⟩ := hz
      · exact hrest c
      · exact harmed c fun hc => hhead c hc rfl
    exact ih hmore (hstep.imp id fun h => ⟨h.2, hbehind h.1⟩)

end Loop

/-- Behind code in which no remark begins the scan is in the code. -/
theorem isRemark_foldl_of_unremarked {cs : List Char} (h : Unremarked cs) :
    (cs.foldl Zone.next .code).isRemark = false := by
  have hloop : cs.foldl Zone.next .code = .code ∨ cs.foldl Zone.next .code = .slash := by
    refine foldl_next_loop '/' (fun c => c = '*' ∨ c = '/') ?_ ?_ ?_ (.inl rfl)
    · intro c
      by_cases hc : c = '/' <;> simp [Zone.next, hc]
    · intro c hc
      obtain ⟨hstar, hslash⟩ := not_or.mp hc
      simp [Zone.next, hstar, hslash]
    · rintro c (rfl | rfl)
      · exact h "/*" (by decide)
      · exact h "//" (by decide)
  obtain hzone | hzone := hloop <;> rw [hzone] <;> rfl

/-- The scan stays in a remark between its signs, and leaves it with the closing sign. -/
theorem foldl_next_block {body : List Char} (h : ¬ "*/".toList <:+: body) :
    (body.foldl Zone.next .block).isRemark = true ∧
      (body ++ "*/".toList).foldl Zone.next .block = .code := by
  have hloop : body.foldl Zone.next .block = .block ∨ body.foldl Zone.next .block = .star := by
    refine foldl_next_loop '*' (· = '/') ?_ ?_ ?_ (.inl rfl)
    · intro c
      by_cases hc : c = '*' <;> simp [Zone.next, hc]
    · intro c hc
      by_cases hstar : c = '*' <;> simp [Zone.next, hc, hstar]
    · rintro c rfl
      exact h
  rw [List.foldl_append]
  obtain hzone | hzone := hloop <;> rw [hzone] <;> exact ⟨rfl, rfl⟩

/-- The scan stays in a remark behind its sign to the end of the line. -/
theorem foldl_next_line {body : List Char} (h : ∀ c ∈ body, isLineEnd c = false) :
    body.foldl Zone.next .line = .line := by
  induction body with
  | nil => rfl
  | cons c body ih =>
    obtain ⟨hc, hbody⟩ := List.forall_mem_cons.mp h
    rw [List.foldl_cons, Zone.next, hc]
    exact ih hbody

theorem zoneAfter_of_blanks {lead : List Char} (h : ∀ c ∈ lead, isBlank c = true) :
    zoneAfter lead = .code := by
  rw [zoneAfter]
  induction lead with
  | nil => rfl
  | cons c lead ih =>
    obtain ⟨hc, hlead⟩ := List.forall_mem_cons.mp h
    have hslash : c ≠ '/' := by
      rintro rfl
      exact absurd hc (by decide)
    rw [List.foldl_cons, Zone.next, if_neg hslash]
    exact ih hlead

section Opening

variable {lead opened ending : List Char}

/-- The scan is in a remark up to its end, and in the code behind it. -/
theorem Remark.zoneAfter (h : Remark opened ending) (hlead : ∀ c ∈ lead, isBlank c = true) :
    (zoneAfter (lead ++ opened)).isRemark = true ∧
      zoneAfter (lead ++ (opened ++ ending)) = .code := by
  have hstart : ∀ cs, Dangling.zoneAfter (lead ++ cs) = cs.foldl Zone.next .code := fun cs => by
    rw [Dangling.zoneAfter, List.foldl_append]
    exact congrArg (cs.foldl Zone.next ·) (zoneAfter_of_blanks hlead)
  rw [hstart, hstart]
  cases h with
  | @line body c stays ends =>
    have hbody := foldl_next_line stays
    refine ⟨?_, ?_⟩
    · show (body.foldl Zone.next .line).isRemark = true
      rw [hbody]
      rfl
    · show (body ++ [c]).foldl Zone.next .line = .code
      rw [List.foldl_append, hbody, List.foldl_cons, List.foldl_nil, Zone.next, if_pos ends]
  | block stays => exact foldl_next_block stays

theorem Remark.opens (h : Remark opened ending) (hlead : ∀ c ∈ lead, isBlank c = true)
    (more : List Char) : OpensWithRemark (lead ++ (opened ++ more)) := by
  cases h with
  | line => exact ⟨"//", by decide, lead, _, hlead, by rw [List.append_assoc]⟩
  | block => exact ⟨"/*", by decide, lead, _, hlead, by rw [List.append_assoc]⟩

/-- Behind a remark and code in which no remark begins, nothing is in a remark. -/
theorem Remark.not_isRemark_behind (h : Remark opened ending)
    (hlead : ∀ c ∈ lead, isBlank c = true) {behind : List Char} (hbehind : Unremarked behind) :
    (Dangling.zoneAfter (lead ++ (opened ++ ending) ++ behind)).isRemark = false := by
  have hcode := (h.zoneAfter hlead).2
  rw [Dangling.zoneAfter] at hcode ⊢
  rw [List.foldl_append, hcode]
  exact isRemark_foldl_of_unremarked hbehind

end Opening

theorem Unremarked.of_append {xs ys : List Char} (h : Unremarked (xs ++ ys)) : Unremarked xs :=
  fun sign hsign hpart => h sign hsign (hpart.trans (List.prefix_append xs ys).isInfix)

/-! ## What a row tells -/

/-- A calculation shows a remark exactly if it opens with one. -/
theorem commented_calculation_iff {t : String} :
    (Evidence.calculation t).commented = true ↔ OpensWithRemark t.toList := by
  have hsign : ∀ sign ∈ ["/*", "//"], beginsWith sign (trim t) = true ↔
      ∃ lead rest, (∀ c ∈ lead, isBlank c = true) ∧ t.toList = lead ++ (sign.toList ++ rest) := by
    intro sign hsign
    have hkept : sign.toList ≠ [] ∧ ∀ c ∈ sign.toList, isBlank c = false := by
      revert sign
      decide
    rw [beginsWith_iff, trim, String.toList_ofList, isPrefix_trimChars_iff hkept.1 hkept.2]
  rw [Evidence.commented, Bool.or_eq_true, hsign "/*" (by decide), hsign "//" (by decide),
    OpensWithRemark]
  simp only [List.mem_cons, List.not_mem_nil, or_false, exists_eq_or_imp, exists_eq_left]

variable {k : Known} {root : Site} {s : Spot} {p : Problem} {r : Row}

/-- A row is marked as commented exactly if the evidence shows it, and its standing says so unless the
location tells of deletion, or the location or the error speaks of temporary work. -/
theorem row_commented (h : k.row s p = .ok r) :
    (r.commented = true ↔ s.evidence.commented = true) ∧
      (r.status = .commentedOut ↔ s.evidence.commented = true ∧ ¬ TellsDeletion k.folders s.full ∧
        (speaksOfTrial (lower s.full) || speaksOfTrial (lower p.error)) = false) := by
  obtain ⟨status, hstatus, h⟩ := bind_eq_ok_iff.mp h
  obtain rfl := pure_eq_ok_iff.mp h
  have hdelete := statusOf_eq_toDelete_iff hstatus
  obtain ⟨deleted, -, hstatus⟩ := bind_eq_ok_iff.mp hstatus
  split at hstatus
  · obtain rfl := pure_eq_ok_iff.mp hstatus
    simp [hdelete.mp rfl]
  · split at hstatus
    · rename_i htrial
      obtain rfl := pure_eq_ok_iff.mp hstatus
      rw [htrial]
      simp
    · rename_i htrial
      obtain rfl := pure_eq_ok_iff.mp hstatus
      rw [← hdelete, Bool.eq_false_iff.mpr htrial]
      cases s.evidence.commented <;> simp

/-! ## References -/

/-- The error about a field that a calculation names. -/
def unknownField (table field : String) : String :=
  s!"Unknown field in calculation: \"{table}::{field}\""

/-- The error about a function that a calculation calls. -/
def unknownFunction (name : String) : String := s!"Unknown custom function: \"{name}\""

/-- A text makes a reference that an error is about. -/
inductive Refers (t : List Char) : String → List Char → Prop where
  | table {table field : List Char} (found : (table, field) ∈ referencePattern.findPairs t) :
      Refers t (unknownTable (.ofList table)) (table ++ ("::".toList ++ field))
  | field {table field : List Char} (found : (table, field) ∈ referencePattern.findPairs t) :
      Refers t (unknownField (.ofList table) (.ofList field)) (table ++ ("::".toList ++ field))
  | function {name : List Char} (found : name ∈ callPattern.findFirst t) :
      Refers t (unknownFunction (.ofList name)) name

theorem isInfix_of_mem_findPairs {t table field : List Char}
    (h : (table, field) ∈ referencePattern.findPairs t) :
    table ++ ("::".toList ++ field) <:+: t := by
  obtain ⟨pre, cs, after, gs, rfl, hreads⟩ := reads_of_mem_findPairs h
  rw [referencePattern, reads_group_then fun _ _ _ _ => reads_oneOrMore] at hreads
  obtain ⟨_, _, _, rfl, hgroups, -, hreads⟩ := hreads
  obtain ⟨rfl, rfl⟩ := List.cons.inj hgroups
  obtain ⟨_, _, rfl, rfl, hreads⟩ := reads_text_then.mp hreads
  obtain ⟨_, _, _, rfl, hgroups, -, hreads⟩ :=
    (reads_group_then fun _ _ _ _ => reads_oneOrMore).mp hreads
  obtain ⟨rfl, rfl⟩ := List.cons.inj hgroups
  obtain ⟨rfl, rfl⟩ := reads_all_nil.mp hreads
  exact ⟨pre, after, by simp⟩

theorem isInfix_of_mem_findFirst {t name : List Char} (h : name ∈ callPattern.findFirst t) :
    name <:+: t := by
  obtain ⟨pre, cs, after, gs, rfl, hreads⟩ := reads_of_mem_findFirst h
  rw [callPattern, reads_group_then fun _ _ _ _ => reads_oneOrMore] at hreads
  obtain ⟨_, ys, gs₁, rfl, hgroups, -, -⟩ := hreads
  obtain ⟨rfl, -⟩ := List.cons.inj hgroups
  exact ⟨pre, ys ++ after, by simp⟩

/-- What a text refers to stands in it. -/
theorem Refers.isInfix {t reference : List Char} {error : String} (h : Refers t error reference) :
    reference <:+: t := by
  cases h with
  | table found => exact isInfix_of_mem_findPairs found
  | field found => exact isInfix_of_mem_findPairs found
  | function found => exact isInfix_of_mem_findFirst found

theorem text_of_written? {n : Node} {t : String} (h : n.written? = some t) :
    n.text.getD "" = t := by
  rw [(Option.filter_eq_some_iff.mp h).1, Option.getD_some]

/-- The problems of a calculation of a field are about references that its text makes. -/
theorem refers_of_mem_calculationProblems {c : Site} (h : p ∈ k.calculationProblems c) :
    ∃ reference, Refers (c.node.text.getD "").toList p.error reference := by
  rw [Known.calculationProblems] at h
  split at h
  · cases h
  · rename_i t ht
    rw [text_of_written? (Option.filter_eq_some_iff.mp ht).1]
    obtain ⟨⟨table, field⟩, hpair, hfound⟩ := List.mem_filterMap.mp h
    dsimp only at hfound
    split at hfound
    · obtain rfl := Option.some.inj hfound
      exact ⟨_, .table hpair⟩
    · obtain rfl := Option.some.inj hfound
      exact ⟨_, .field hpair⟩
    · cases hfound

/-- The problems of a custom function are about references that its text makes. -/
theorem refers_of_mem_callProblems {c : Site} (h : p ∈ k.callProblems c) :
    ∃ reference, Refers (c.node.text.getD "").toList p.error reference := by
  rw [Known.callProblems] at h
  split at h
  · cases h
  · rename_i t ht
    rw [text_of_written? ht]
    obtain ⟨_, hcalled, hfound⟩ := List.mem_filterMap.mp h
    obtain ⟨name, hname, rfl⟩ := List.mem_map.mp hcalled
    split at hfound
    · cases hfound
    · obtain rfl := Option.some.inj hfound
      exact ⟨_, .function hname⟩

/-! ## The rows of calculations -/

/-- The kinds of the rows for calculations of fields and custom functions. -/
def Kind.ofCalculation : Kind → Bool
  | .fieldCalculation | .function => true
  | _ => false

/-- What is found in the calculations of fields and custom functions. -/
def FoundInText (k : Known) (root : Site) (s : Spot) (p : Problem) : Prop :=
  Among (root.all "BaseTable") (FoundInTable k) s p ∨
    Among (root.all "CustomFunction") (FoundInFunction k) s p

/-- What is found in a calculation is about a reference that the text makes which the row shows. -/
theorem FoundInText.refers (h : FoundInText k root s p) :
    ∃ t reference, s.evidence = .calculation t ∧ Refers t.toList p.error reference := by
  rcases h with ⟨table, -, field, -, c, -, rfl, hp⟩ | ⟨f, -, c, -, rfl, hp⟩
  · obtain ⟨reference, href⟩ := refers_of_mem_calculationProblems hp
    exact ⟨_, reference, rfl, href⟩
  · obtain ⟨reference, href⟩ := refers_of_mem_callProblems hp
    exact ⟨_, reference, rfl, href⟩

theorem FoundInText.ofCalculation (h : FoundInText k root s p) : s.kind.ofCalculation = true := by
  rcases h with ⟨table, -, field, -, c, -, rfl, -⟩ | ⟨f, -, c, -, rfl, -⟩ <;> rfl

section Kinds

variable {rs : List Row}

/-- The rows of a spot elsewhere are for no calculation. -/
theorem ofCalculation_of_rows {ps : List Problem} (h : k.rows s ps = .ok rs)
    (hs : s.kind.ofCalculation = false) : ∀ r ∈ rs, r.kind.ofCalculation = false := by
  intro r hr
  obtain ⟨p, -, hrow⟩ := (mem_of_mapM_eq_ok h).mp hr
  rw [(row_spec hrow).1, hs]

theorem ofCalculation_of_scriptRows {script : Site} (h : k.scriptRows script = .ok rs) :
    ∀ r ∈ rs, r.kind.ofCalculation = false :=
  forall_mem_of_flatten h fun _ _ _ hstep => ofCalculation_of_rows hstep rfl

theorem ofCalculation_of_layoutRows {layout : Site} (h : k.layoutRows layout = .ok rs) :
    ∀ r ∈ rs, r.kind.ofCalculation = false := by
  obtain ⟨fields, hfields, h⟩ := bind_eq_ok_iff.mp h
  obtain ⟨buttons, hbuttons, h⟩ := bind_eq_ok_iff.mp h
  obtain ⟨portals, hportals, h⟩ := bind_eq_ok_iff.mp h
  rw [← pure_eq_ok_iff.mp h]
  -- each object is placed before its rows are made
  have hplaced : ∀ {object : Site} {spot : String → Spot} {ps : List Problem} {ys : List Row},
      (∀ position, (spot position).kind.ofCalculation = false) →
      (Layout.positionText object >>= fun position => k.rows (spot position) ps) = .ok ys →
      ∀ r ∈ ys, r.kind.ofCalculation = false := fun hspot hys => by
    obtain ⟨position, -, hys⟩ := bind_eq_ok_iff.mp hys
    exact ofCalculation_of_rows hys (hspot position)
  simp only [List.forall_mem_append]
  exact ⟨⟨forall_flatten_of_mapM hfields fun _ _ _ => hplaced fun _ => rfl,
    forall_flatten_of_mapM hbuttons fun _ _ _ => hplaced fun _ => rfl⟩,
    forall_flatten_of_mapM hportals fun _ _ _ => hplaced fun _ => rfl⟩

theorem ofCalculation_of_relationshipRows {relationship : Site}
    (h : k.relationshipRows relationship = .ok rs) : ∀ r ∈ rs, r.kind.ofCalculation = false :=
  forall_mem_of_flatten h fun _ _ _ hpair =>
    forall_mem_of_flatten hpair fun _ _ _ hrows => ofCalculation_of_rows hrows rfl

end Kinds

/-- The members of a traversal that gathers rows. -/
theorem mem_flatten_iff_of_gathers {α : Type} {xs : List α} {f : α → Except Fault (List Row)}
    {foundAt : α → Spot → Problem → Prop} {yss : List (List Row)} (h : xs.mapM f = .ok yss)
    (hf : ∀ x, Gathers k [] (f x) (foundAt x)) :
    r ∈ yss.flatten ↔ ∃ s p, Among xs foundAt s p ∧ k.row s p = .ok r := by
  have hgathers := Gathers.collect fun x (_ : x ∈ xs) => hf x
  rw [hgathers.mem_iff (bind_eq_ok_iff.mpr ⟨yss, h, rfl⟩)]
  exact or_iff_right List.not_mem_nil

/-- The rows of the report for calculations are those of what is found in them. -/
theorem mem_allRows_ofCalculation_iff {rows : List Row} (h : k.allRows root = .ok rows) :
    r ∈ rows ∧ r.kind.ofCalculation = true ↔ ∃ s p, FoundInText k root s p ∧ k.row s p = .ok r := by
  obtain ⟨scripts, hscripts, h⟩ := bind_eq_ok_iff.mp h
  obtain ⟨layouts, hlayouts, h⟩ := bind_eq_ok_iff.mp h
  obtain ⟨tables, htables, h⟩ := bind_eq_ok_iff.mp h
  obtain ⟨functions, hfunctions, h⟩ := bind_eq_ok_iff.mp h
  obtain ⟨valueLists, hvalueLists, h⟩ := bind_eq_ok_iff.mp h
  obtain ⟨relationships, hrelationships, h⟩ := bind_eq_ok_iff.mp h
  obtain rfl := pure_eq_ok_iff.mp h
  have htexts : r ∈ tables.flatten ∨ r ∈ functions.flatten ↔
      ∃ s p, FoundInText k root s p ∧ k.row s p = .ok r := by
    rw [mem_flatten_iff_of_gathers htables gathers_tableRows,
      mem_flatten_iff_of_gathers hfunctions gathers_functionRows]
    simp only [FoundInText, or_and_right, exists_or]
  rw [← htexts]
  simp only [List.flatten_append, List.mem_append]
  constructor
  · rintro ⟨hr, hkind⟩
    have helsewhere : ∀ {f : Site → Except Fault (List Row)} {xs : List Site}
        {yss : List (List Row)}, xs.mapM f = .ok yss →
        (∀ x rs, f x = .ok rs → ∀ r ∈ rs, r.kind.ofCalculation = false) → r ∉ yss.flatten :=
      fun hyss hf hr => by
        rw [forall_flatten_of_mapM hyss (fun x _ => hf x) r hr] at hkind
        cases hkind
    simpa only [helsewhere hscripts fun _ _ => ofCalculation_of_scriptRows,
      helsewhere hlayouts fun _ _ => ofCalculation_of_layoutRows,
      helsewhere hvalueLists fun _ _ hrows => ofCalculation_of_rows hrows rfl,
      helsewhere hrelationships fun _ _ => ofCalculation_of_relationshipRows,
      false_or, or_false] using hr
  · intro hr
    obtain ⟨s, p, hfound, hrow⟩ := htexts.mp hr
    refine ⟨?_, by rw [(row_spec hrow).1, hfound.ofCalculation]⟩
    exact .inl (.inl (hr.imp .inr id))

/-- Each finding in a calculation has a row in a report that is completed. -/
theorem exists_row_of_foundInText {rows : List Row} (h : k.allRows root = .ok rows)
    (hfound : FoundInText k root s p) : ∃ r ∈ rows, k.row s p = .ok r := by
  have hrow : ∃ r, k.row s p = .ok r := by
    obtain ⟨_, _, h⟩ := bind_eq_ok_iff.mp h
    obtain ⟨_, _, h⟩ := bind_eq_ok_iff.mp h
    obtain ⟨tables, htables, h⟩ := bind_eq_ok_iff.mp h
    obtain ⟨functions, hfunctions, _⟩ := bind_eq_ok_iff.mp h
    obtain ⟨table, htable, hfound⟩ | ⟨f, hf, hfound⟩ := hfound
    · exact (gathers_tableRows table).ok_iff.mp
        (exists_mapM_eq_ok_iff.mp ⟨tables, htables⟩ table htable) s p hfound
    · exact (gathers_functionRows f).ok_iff.mp
        (exists_mapM_eq_ok_iff.mp ⟨functions, hfunctions⟩ f hf) s p hfound
  obtain ⟨r, hr⟩ := hrow
  exact ⟨r, ((mem_allRows_ofCalculation_iff h).mpr ⟨s, p, hfound, hr⟩).1, hr⟩

/-! ## The report -/

/-- **A reference is told of as commented exactly if its calculation opens with a remark.** An audit
that completes has a row for each finding in a calculation of a field or a custom function, and no
other rows of these kinds. A finding is about a reference that stands in the calculation. Its row says
that it is commented exactly if the calculation opens with a remark, and its standing says so unless
the location tells of deletion, or the location or the error speaks of temporary work.

Where the opening remark is not closed before a reference, that reference stands in a remark. Where it
is closed and no other remark follows, none does that stands behind it, and the row tells of a remark
all the same. -/
theorem reference_commented_iff_opening {catalogue : Catalog.Full} {n : Node}
    (hlog : (audit (some ⟨catalogue, some n⟩)).log = []) :
    (∃ rows : List Row, (audit (some ⟨catalogue, some n⟩)).rows = (arranged rows).map Row.cells ∧
      (∀ r ∈ rows, r.kind.ofCalculation = true →
        ∃ s p, FoundInText ⟨catalogue⟩ (Site.root n) s p ∧ Known.row ⟨catalogue⟩ s p = .ok r) ∧
      ∀ s p, FoundInText ⟨catalogue⟩ (Site.root n) s p →
        ∃ r ∈ rows, Known.row ⟨catalogue⟩ s p = .ok r ∧ r.kind.ofCalculation = true ∧
        ∃ t reference, s.evidence = .calculation t ∧ Refers t.toList r.error reference ∧
          reference <:+: t.toList ∧
          (r.commented = true ↔ OpensWithRemark t.toList) ∧
          (r.status = .commentedOut ↔
            OpensWithRemark t.toList ∧ ¬ TellsDeletion (Known.folders ⟨catalogue⟩) s.full ∧
              (speaksOfTrial (lower s.full) || speaksOfTrial (lower r.error)) = false)) ∧
    ∀ lead opened ending, (∀ c ∈ lead, isBlank c = true) → Remark opened ending →
      ∀ reference,
        (∀ after, OpensWithRemark (lead ++ (opened ++ (reference ++ after))) ∧
          InRemark reference (lead ++ (opened ++ (reference ++ after)))) ∧
        ∀ body, Unremarked body → OpensWithRemark (lead ++ (opened ++ (ending ++ body))) ∧
          ∀ before after, lead ++ (opened ++ (ending ++ body)) = before ++ (reference ++ after) →
            (zoneAfter before).isRemark = true →
            before.length < (lead ++ (opened ++ ending)).length := by
  refine ⟨?_, fun lead opened ending hlead hremark reference =>
    ⟨fun after => ?_, fun body hbody => ?_⟩⟩
  · obtain ⟨rows, hrows⟩ := audit_log_eq_nil_iff.mp hlog
    refine ⟨rows, by rw [audit_of_allRows hrows], fun r hr hkind => ?_, fun s p hfound => ?_⟩
    · exact (mem_allRows_ofCalculation_iff hrows).mp ⟨hr, hkind⟩
    · obtain ⟨r, hr, hrow⟩ := exists_row_of_foundInText hrows hfound
      obtain ⟨t, reference, ht, href⟩ := hfound.refers
      have hmarks := row_commented hrow
      rw [ht, commented_calculation_iff, ← row_error hrow] at hmarks
      rw [← row_error hrow] at href
      have hkind := ((mem_allRows_ofCalculation_iff hrows).mpr ⟨s, p, hfound, hrow⟩).2
      exact ⟨r, hr, hrow, hkind, t, reference, ht, href, href.isInfix, hmarks⟩
  · refine ⟨hremark.opens hlead _, lead ++ opened, after, ?_, (hremark.zoneAfter hlead).1⟩
    rw [List.append_assoc]
  · refine ⟨hremark.opens hlead _, fun before after hsplit hzone => ?_⟩
    by_contra hshort
    -- the place stands behind the opening remark, in code where no remark begins
    have hprefix : lead ++ (opened ++ ending) <+: before :=
      List.prefix_of_prefix_length_le ⟨body, by simp⟩ ⟨reference ++ after, hsplit.symm⟩
        (Nat.not_lt.mp hshort)
    obtain ⟨behind, rfl⟩ := hprefix
    have hbehind : body = behind ++ (reference ++ after) := by
      simpa [List.append_assoc] using hsplit
    rw [hremark.not_isRemark_behind hlead (hbehind ▸ hbody).of_append] at hzone
    cases hzone

/-- A report with a field whose calculation makes a reference behind a remark. -/
def remarkedReport : Node :=
  plain "Report" [] [plain "BaseTable" [("name", "T")]
    [plain "Field" [("name", "f")]
      [calculationOf "/* note */ U::g"]]]

theorem remarkedReport_found : ∃ s p,
    FoundInText (known remarkedReport) (Site.root remarkedReport) s p ∧
      s.evidence = .calculation "/* note */ U::g" ∧ p.error = unknownTable "U" ∧
      s.full = "Field: T::f" :=
  ⟨_, _, .inl ⟨_, List.get_mem _ ⟨0, by decide⟩, _, List.get_mem _ ⟨0, by decide⟩, _,
    List.get_mem _ ⟨0, by decide⟩, rfl, List.get_mem _ ⟨0, by decide⟩⟩, rfl, rfl, rfl⟩

/-- The reference behind the remark is told of as commented out, though it stands in no remark. -/
theorem reference_behind_remark_commented :
    (ownAudit remarkedReport).log = [] ∧
    (∃ row ∈ (ownAudit remarkedReport).rows,
      ("Error", .text (unknownTable "U")) ∈ row ∧ ("Commented", .text "Yes") ∈ row ∧
        ("Status", .text "Commented Out") ∈ row) ∧
    ¬ InRemark "U::g".toList "/* note */ U::g".toList := by
  have hlog : (ownAudit remarkedReport).log = [] := rfl
  obtain ⟨⟨rows, hrows, -, htold⟩, htext⟩ := reference_commented_iff_opening hlog
  have hremark : Remark "/* note ".toList "*/".toList :=
    .block (by decide : ¬ "*/".toList <:+: " note ".toList)
  have hopens : OpensWithRemark "/* note */ U::g".toList :=
    ((htext [] _ _ (by simp) hremark "U::g".toList).2 " U::g".toList (by decide)).1
  obtain ⟨s, p, hfound, hevidence, herror, hfull⟩ := remarkedReport_found
  obtain ⟨r, hr, hrow, -, t, reference, ht, -, -, hcommented, hstatus⟩ := htold s p hfound
  have hdeletion : ¬ TellsDeletion (known remarkedReport).folders s.full := by
    rw [hfull]
    rintro (hspeaks | ⟨name, hname, -⟩ | ⟨name, hname, -⟩)
    · exact absurd hspeaks (by decide)
    · cases hname
    · cases hname
  have htrial : (speaksOfTrial (lower s.full) || speaksOfTrial (lower r.error)) = false := by
    rw [hfull, row_error hrow, herror]
    decide
  obtain rfl : "/* note */ U::g" = t := Evidence.calculation.inj (hevidence.symm.trans ht)
  refine ⟨hlog, ⟨r.cells, ?_, ?_⟩, by decide⟩
  · rw [ownAudit, hrows]
    exact List.mem_map_of_mem (mem_arranged.mpr hr)
  · simp [Row.cells, hcommented.mpr hopens, hstatus.mpr ⟨hopens, hdeletion, htrial⟩, row_error hrow, herror,
      Status.text]

end DesignAudit.Dangling
