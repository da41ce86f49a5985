import DesignAudit.Query.Statement
import DesignAudit.Proofs.Text.Pattern

/-!
# Where a name stands in a query

The places at which a query has a field, said by the text around the name and not by patterns: after a
keyword and before a comparison, as the first item that is selected, after the words that order or
group the rows (`StandsIn`); inside a summary function, as a later item, or as a first item that is
closed by a bracket (`StandsApart`); and behind another name and a dot (`Dotted`).

Whatever the patterns for fields capture stands at one of these places
(`stands_of_mem_placedFields`, `standsIn_of_mem_orderingFields`, `dotted_of_mem_dottedFields`).
-/

namespace DesignAudit.Query

open Text Text.Pattern

/-! ## Places -/

/-- A text of blanks only. -/
def IsBlanks (cs : List Char) : Prop := ∀ c ∈ cs, isBlank c = true

instance (cs : List Char) : Decidable (IsBlanks cs) :=
  inferInstanceAs (Decidable (∀ c ∈ cs, isBlank c = true))

/-- A text of at least one blank, and of blanks only. -/
def IsGap (cs : List Char) : Prop := cs ≠ [] ∧ IsBlanks cs

/-- A name after a keyword that is compared with something. -/
def ComparedAfter (keyword : String) (query name : List Char) : Prop :=
  ∃ pre k g b c post, query = pre ++ (k ++ (g ++ (name ++ (b ++ c :: post)))) ∧
    Spells keyword k ∧ IsGap g ∧ IsBlanks b ∧ c ∈ "=<>!".toList

/-- What ends an item after which the selection goes on: a comma, or the word that names the table. -/
def EndsItem (e : List Char) : Prop :=
  (∃ b, e = b ++ [','] ∧ IsBlanks b) ∨ ∃ g w, e = g ++ w ∧ IsGap g ∧ Spells "FROM" w

/-- A closing bracket, blanks before it apart. -/
def ClosesBracket (e : List Char) : Prop := ∃ b, e = b ++ [')'] ∧ IsBlanks b

/-- A name as the first item that is selected, with what ends the item. -/
def SelectedFirst (ends : List Char → Prop) (query name : List Char) : Prop :=
  ∃ pre k g e post, query = pre ++ (k ++ (g ++ (name ++ (e ++ post)))) ∧
    Spells "SELECT" k ∧ IsGap g ∧ ends e

/-- A name after the words that order or group the rows. -/
def SortedBy (keyword : String) (query name : List Char) : Prop :=
  ∃ pre k g w g' post, query = pre ++ (k ++ (g ++ (w ++ (g' ++ (name ++ post))))) ∧
    Spells keyword k ∧ IsGap g ∧ Spells "BY" w ∧ IsGap g'

/-- A name as an item after a comma. -/
def SelectedLater (query name : List Char) : Prop :=
  ∃ pre b e post, query = pre ++ ',' :: (b ++ (name ++ (e ++ post))) ∧ IsBlanks b ∧
    (EndsItem e ∨ ClosesBracket e)

/-- The word that counts distinct values only. -/
def IsDistinct (d : List Char) : Prop := ∃ w g, d = w ++ g ∧ Spells "DISTINCT" w ∧ IsGap g

/-- A name inside a summary function that is selected. -/
def Summarised (query name : List Char) : Prop :=
  ∃ function ∈ ["SUM", "COUNT", "AVG", "MAX", "MIN"],
    ∃ pre k g w b₁ b₂ d b₃ post,
      query = pre ++ (k ++ (g ++ (w ++ (b₁ ++ '(' :: (b₂ ++ (d ++ (name ++ (b₃ ++ ')' :: post))))))))
        ∧ Spells "SELECT" k ∧ IsGap g ∧ Spells function w ∧ IsBlanks b₁ ∧ IsBlanks b₂ ∧
        (d = [] ∨ function = "COUNT" ∧ IsDistinct d) ∧ IsBlanks b₃

/-- A name behind another name and a dot. -/
def Dotted (query nick name : List Char) : Prop := (nick ++ '.' :: name) <:+: query

/-- A name at a place where both audits look for fields. -/
inductive StandsIn (query name : List Char) : Prop where
  | compared {keyword : String} (known : keyword ∈ ["WHERE", "AND", "OR"])
      (here : ComparedAfter keyword query name)
  | selected (here : SelectedFirst EndsItem query name)
  | sorted {keyword : String} (known : keyword ∈ ["ORDER", "GROUP"])
      (here : SortedBy keyword query name)

/-- A name at a place where only the audit of queries looks for fields. -/
inductive StandsApart (query name : List Char) : Prop where
  | summarised (here : Summarised query name)
  | later (here : SelectedLater query name)
  | bracketed (here : SelectedFirst ClosesBracket query name)

/-- A name at a place where a field of the main table stands, the words that order or group the rows
apart. -/
inductive Placed (query name : List Char) : Prop where
  | compared {keyword : String} (known : keyword ∈ ["WHERE", "AND", "OR"])
      (here : ComparedAfter keyword query name)
  | selected (here : SelectedFirst EndsItem query name ∨ SelectedFirst ClosesBracket query name)
  | summarised (here : Summarised query name)
  | later (here : SelectedLater query name)

theorem Placed.stands {query name : List Char} (h : Placed query name) :
    StandsIn query name ∨ StandsApart query name := by
  cases h with
  | compared known here => exact .inl (.compared known here)
  | selected here => exact here.imp .selected .bracketed
  | summarised here => exact .inr (.summarised here)
  | later here => exact .inr (.later here)

/-! ## What the patterns capture -/

section Followed

variable {rest : List Pattern} {before : Option Char} {cs after : List Char}
  {gs : List (List Char)}

theorem reads_blanks_then :
    (all (blanks :: rest)).Reads before cs after gs ↔
      ∃ xs ys, cs = xs ++ ys ∧ IsBlanks xs ∧ (all rest).Reads (passed before xs) ys after gs :=
  reads_many_then

theorem reads_gap_then :
    (all (gap :: rest)).Reads before cs after gs ↔
      ∃ xs ys, cs = xs ++ ys ∧ IsGap xs ∧ (all rest).Reads (passed before xs) ys after gs :=
  reads_oneOrMore_then

theorem reads_name_then :
    (all (name :: rest)).Reads before cs after gs ↔
      ∃ xs ys gs', cs = xs ++ ys ∧ gs = xs :: gs' ∧ (xs ≠ [] ∧ ∀ c ∈ xs, isName c = true) ∧
        (all rest).Reads (passed before xs) ys after gs' :=
  reads_group_then fun _ _ _ _ => reads_oneOrMore

end Followed

def CapturesNames (p : Pattern) : Prop := ∀ b ∈ p.bodies, b = oneOrMore isName ∨ b = nothing

theorem capturesNames_tablePattern : CapturesNames tablePattern := by
  have hbodies : tablePattern.bodies = [oneOrMore isName] := rfl
  simp [CapturesNames, hbodies]

theorem capturesNames_mainPattern : CapturesNames mainPattern := by
  have hbodies : mainPattern.bodies = [oneOrMore isName] := rfl
  simp [CapturesNames, hbodies]

theorem capturesNames_dottedPattern : CapturesNames dottedPattern := by
  have hbodies : dottedPattern.bodies = [oneOrMore isName, oneOrMore isName] := rfl
  simp [CapturesNames, hbodies]

theorem capturesNames_joinPattern : CapturesNames joinPattern := by
  have hbodies : joinPattern.bodies = [oneOrMore isName, oneOrMore isName, nothing] := rfl
  simp [CapturesNames, hbodies]

theorem CapturesNames.isName {p : Pattern} (hp : CapturesNames p) {before : Option Char}
    {cs after : List Char} {gs : List (List Char)} (h : p.Reads before cs after gs) {g : List Char}
    (hg : g ∈ gs) : ∀ c ∈ g, isName c = true := by
  obtain ⟨b, hb, _, _, _, hreads⟩ := exists_mem_bodies_of_reads h hg
  rcases hp b hb with rfl | rfl
  · exact (reads_oneOrMore.mp hreads).1.2
  · obtain ⟨rfl, -⟩ := hreads
    simp

section Captured

variable {query g : List Char}

theorem comparedAfter_of_mem {keyword : String} (h : g ∈ (comparedAfter keyword).findFirst query) :
    ComparedAfter keyword query g := by
  obtain ⟨pre, cs, post, gs, rfl, hreads⟩ := reads_of_mem_findFirst h
  simp only [comparedAfter, reads_word_then, reads_gap_then, reads_name_then, reads_blanks_then,
    reads_one_then, reads_all_nil] at hreads
  obtain ⟨k, _, rfl, hk, s, _, rfl, hs, n, _, gs', rfl, hgs, -, b, _, rfl, hb, _, _, rfl,
    ⟨c, hc, rfl⟩, rfl, rfl⟩ := hreads
  obtain ⟨rfl, -⟩ := List.cons.inj hgs
  exact ⟨pre, k, s, b, c, post, by simp, hk, hs, hb, List.contains_iff_mem.mp hc⟩

theorem sortedBy_of_mem {keyword : String}
    (h : g ∈ (all [word keyword, gap, word "BY", gap, name]).findFirst query) :
    SortedBy keyword query g := by
  obtain ⟨pre, cs, post, gs, rfl, hreads⟩ := reads_of_mem_findFirst h
  simp only [reads_word_then, reads_gap_then, reads_name_then, reads_all_nil] at hreads
  obtain ⟨k, _, rfl, hk, s, _, rfl, hs, w, _, rfl, hw, s', _, rfl, hs', n, _, gs', rfl, hgs, -,
    rfl, rfl⟩ := hreads
  obtain ⟨rfl, -⟩ := List.cons.inj hgs
  exact ⟨pre, k, s, w, s', post, by simp, hk, hs, hw, hs'⟩

/-- An item ends with a comma, with a closing bracket, or before the word that names the table. -/
theorem reads_itemEnd {before : Option Char} {e after : List Char} {gs : List (List Char)} :
    itemEnd.Reads before e after gs ↔ (EndsItem e ∨ ClosesBracket e) ∧ gs = [] := by
  rw [itemEnd, Reads]
  simp only [reads_blanks_then, reads_one_then, reads_gap_then, reads_word_then, reads_all_nil]
  constructor
  · rintro (⟨b, _, rfl, hb, _, _, rfl, ⟨c, hc, rfl⟩, rfl, rfl⟩ | ⟨s, _, rfl, hs, w, _, rfl, hw, rfl, rfl⟩)
    · rw [Bool.or_eq_true, beq_iff_eq, beq_iff_eq] at hc
      rcases hc with rfl | rfl
      · exact ⟨.inl (.inl ⟨b, rfl, hb⟩), rfl⟩
      · exact ⟨.inr ⟨b, rfl, hb⟩, rfl⟩
    · rw [List.append_nil]
      exact ⟨.inl (.inr ⟨s, w, rfl, hs, hw⟩), rfl⟩
  · rintro ⟨(⟨b, rfl, hb⟩ | ⟨s, w, rfl, hs, hw⟩) | ⟨b, rfl, hb⟩, rfl⟩
    · exact .inl ⟨b, _, rfl, hb, [','], [], rfl, ⟨',', rfl, rfl⟩, rfl, rfl⟩
    · exact .inr ⟨s, w, rfl, hs, w, [], (List.append_nil w).symm, hw, rfl, rfl⟩
    · exact .inl ⟨b, _, rfl, hb, [')'], [], rfl, ⟨')', rfl, rfl⟩, rfl, rfl⟩

theorem selectedFirst_of_mem
    (h : g ∈ (all [word "SELECT", gap,
      group (oneOrMore fun c => !isBlank c && !",()".toList.contains c), itemEnd]).findFirst query) :
    SelectedFirst EndsItem query g ∨ SelectedFirst ClosesBracket query g := by
  obtain ⟨pre, cs, post, gs, rfl, hreads⟩ := reads_of_mem_findFirst h
  simp only [reads_word_then, reads_gap_then, reads_group_then fun _ _ _ _ => reads_oneOrMore,
    reads_then fun _ _ _ _ => reads_itemEnd, reads_all_nil] at hreads
  obtain ⟨k, _, rfl, hk, s, _, rfl, hs, n, _, gs', rfl, hgs, -, e, _, rfl, he, rfl, rfl⟩ := hreads
  obtain ⟨rfl, -⟩ := List.cons.inj hgs
  rcases he with he | he
  · exact .inl ⟨pre, k, s, e, post, by simp, hk, hs, he⟩
  · exact .inr ⟨pre, k, s, e, post, by simp, hk, hs, he⟩

theorem selectedLater_of_mem (h : g ∈ (all [text ",", blanks, name, itemEnd]).findFirst query) :
    SelectedLater query g := by
  obtain ⟨pre, cs, post, gs, rfl, hreads⟩ := reads_of_mem_findFirst h
  simp only [reads_text_then, reads_blanks_then, reads_name_then,
    reads_then fun _ _ _ _ => reads_itemEnd, reads_all_nil] at hreads
  obtain ⟨_, _, rfl, rfl, b, _, rfl, hb, n, _, gs', rfl, hgs, -, e, _, rfl, he, rfl, rfl⟩ := hreads
  obtain ⟨rfl, -⟩ := List.cons.inj hgs
  exact ⟨pre, b, e, post, by simp, hb, he⟩

/-- A summary function, with something before the name that only a count has. -/
theorem summarised_of_mem {function : String} {inner : Pattern} {R : List Char → Prop}
    (hinner : ∀ before cs after gs, inner.Reads before cs after gs ↔ R cs ∧ gs = [])
    (hR : ∀ d, R d → d = [] ∨ function = "COUNT" ∧ IsDistinct d)
    (hfunction : function ∈ ["SUM", "COUNT", "AVG", "MAX", "MIN"])
    (h : g ∈ (summarised function inner).findFirst query) : Summarised query g := by
  obtain ⟨pre, cs, post, gs, rfl, hreads⟩ := reads_of_mem_findFirst h
  simp only [summarised, reads_word_then, reads_gap_then, reads_text_then, reads_blanks_then,
    reads_then hinner, reads_name_then, reads_all_nil] at hreads
  obtain ⟨k, _, rfl, hk, s, _, rfl, hs, w, _, rfl, hw, b₁, _, rfl, hb₁, _, _, rfl, rfl, b₂, _, rfl,
    hb₂, d, _, rfl, hd, n, _, gs', rfl, hgs, -, b₃, _, rfl, hb₃, _, _, rfl, rfl, rfl, rfl⟩ := hreads
  obtain ⟨rfl, -⟩ := List.cons.inj hgs
  exact ⟨function, hfunction, pre, k, s, w, b₁, b₂, d, b₃, post, by simp, hk, hs, hw, hb₁, hb₂,
    hR d hd, hb₃⟩

theorem reads_distinct {before : Option Char} {d after : List Char} {gs : List (List Char)} :
    (opt (all [word "DISTINCT", gap])).Reads before d after gs ↔
      (d = [] ∨ IsDistinct d) ∧ gs = [] := by
  rw [opt, Reads]
  simp only [reads_word_then, reads_gap_then, reads_all_nil]
  constructor
  · rintro (⟨w, _, rfl, hw, s, _, rfl, hs, rfl, rfl⟩ | ⟨rfl, rfl⟩)
    · exact ⟨.inr ⟨w, s, by simp, hw, hs⟩, rfl⟩
    · exact ⟨.inl rfl, rfl⟩
  · rintro ⟨rfl | ⟨w, s, rfl, hw, hs⟩, rfl⟩
    · exact .inr ⟨rfl, rfl⟩
    · exact .inl ⟨w, s, rfl, hw, s, [], (List.append_nil s).symm, hs, rfl, rfl⟩

/-- Whatever is captured at a place for fields stands at one of the places that are told apart. -/
theorem placed_of_mem_fieldPlaces :
    ∀ place ∈ fieldPlaces, g ∈ place.2.findFirst query → Placed query g := by
  have hplain : ∀ function ∈ ["SUM", "COUNT", "AVG", "MAX", "MIN"],
      g ∈ (summarised function nothing).findFirst query → Placed query g := by
    intro function hfunction h
    exact .summarised (summarised_of_mem (fun _ _ _ _ => .rfl) (fun _ hd => .inl hd) hfunction h)
  have hcount : g ∈ (summarised "COUNT" (opt (all [word "DISTINCT", gap]))).findFirst query →
      Placed query g := by
    intro h
    refine .summarised (summarised_of_mem (fun _ _ _ _ => reads_distinct) ?_ (by decide) h)
    rintro d (hd | hd)
    · exact .inl hd
    · exact .inr ⟨rfl, hd⟩
  simp only [fieldPlaces, List.forall_mem_cons, List.not_mem_nil, false_imp_iff, implies_true,
    and_true]
  exact ⟨fun h => .compared (by decide) (comparedAfter_of_mem h),
    fun h => .compared (by decide) (comparedAfter_of_mem h),
    fun h => .compared (by decide) (comparedAfter_of_mem h),
    fun h => .selected (selectedFirst_of_mem h),
    hplain "SUM" (by decide), hcount, hplain "AVG" (by decide), hplain "MAX" (by decide),
    hplain "MIN" (by decide), fun h => .later (selectedLater_of_mem h)⟩

theorem stands_of_mem_fieldPlaces :
    ∀ place ∈ fieldPlaces, g ∈ place.2.findFirst query →
      StandsIn query g ∨ StandsApart query g :=
  fun place hplace h => (placed_of_mem_fieldPlaces place hplace h).stands

theorem standsIn_of_mem_orderPlaces :
    ∀ place ∈ orderPlaces, g ∈ place.2.findFirst query → StandsIn query g := by
  simp only [orderPlaces, List.forall_mem_cons, List.not_mem_nil, false_imp_iff, implies_true,
    and_true]
  exact ⟨fun h => .sorted (by decide) (sortedBy_of_mem h),
    fun h => .sorted (by decide) (sortedBy_of_mem h)⟩

end Captured

/-! ## The fields of a query -/

variable {r : FieldRef} {main : String}

/-- What holds of all that is captured at places holds of the fields that are kept of it. -/
theorem forall_mem_kept {places : List (String × Pattern)} {query : List Char}
    {P : List Char → Prop} (hP : ∀ place ∈ places, ∀ g ∈ place.2.findFirst query, P g)
    {keep : String × Pattern → List Char → Option (FieldRef × String)}
    (hkeep : ∀ place g x, keep place g = some x → x.1 = .ofTable main (String.ofList g))
    (h : r ∈ (places.flatMap fun place => (place.2.findFirst query).filterMap (keep place)).map
      (·.1)) :
    ∃ field : String, r = .ofTable main field ∧ P field.toList := by
  obtain ⟨x, hmem, rfl⟩ := List.mem_map.mp h
  obtain ⟨place, hplace, hmem⟩ := List.mem_flatMap.mp hmem
  obtain ⟨g, hg, hfound⟩ := List.mem_filterMap.mp hmem
  refine ⟨String.ofList g, hkeep place g x hfound, ?_⟩
  rw [String.toList_ofList]
  exact hP place hplace g hg

theorem stands_of_mem_placedFields {query : List Char}
    (h : r ∈ (placedFields main query).map (·.1)) :
    ∃ field : String, r = .ofTable main field ∧
      (StandsIn query field.toList ∨ StandsApart query field.toList) := by
  refine forall_mem_kept (fun place hplace _ hg => stands_of_mem_fieldPlaces place hplace hg) ?_ h
  intro place g x hx
  split at hx
  · cases hx
  · rw [← Option.some.inj hx]

theorem standsIn_of_mem_orderingFields {query : List Char}
    (h : r ∈ (orderingFields main query).map (·.1)) :
    ∃ field : String, r = .ofTable main field ∧ StandsIn query field.toList := by
  refine forall_mem_kept (fun place hplace _ hg => standsIn_of_mem_orderPlaces place hplace hg) ?_ h
  intro place g x hx
  split at hx
  · cases hx
  · rw [← Option.some.inj hx]

theorem dotted_of_mem_dottedFields {query : List Char} (h : r ∈ (dottedFields query).map (·.1)) :
    ∃ nick field : String, r = .ofAlias nick field ∧ Dotted query nick.toList field.toList := by
  obtain ⟨⟨_, note⟩, hmem, rfl⟩ := List.mem_map.mp h
  obtain ⟨⟨a, f⟩, hpair, hfound⟩ := List.mem_filterMap.mp hmem
  dsimp only at hfound
  split at hfound
  · cases hfound
  · obtain ⟨rfl, -⟩ := Prod.mk.inj (Option.some.inj hfound)
    refine ⟨String.ofList a, String.ofList f, rfl, ?_⟩
    rw [String.toList_ofList, String.toList_ofList]
    obtain ⟨pre, cs, post, gs, rfl, hreads⟩ := reads_of_mem_findPairs hpair
    simp only [dottedPattern, reads_text_then, reads_name_then, reads_all_nil] at hreads
    obtain ⟨n, _, gs₁, rfl, hgs, -, _, _, rfl, rfl, m, _, gs₂, rfl, hgs', -, rfl, rfl⟩ := hreads
    obtain ⟨rfl, rfl⟩ := List.cons.inj hgs
    obtain ⟨rfl, -⟩ := List.cons.inj hgs'
    exact ⟨pre, post, by simp⟩

/-- The fields of a query come from three searches. -/
theorem mem_fieldsOf_iff {query : List Char} :
    r ∈ (fieldsOf main query).map (·.1) ↔
      r ∈ (dottedFields query).map (·.1) ∨ r ∈ (placedFields main query).map (·.1) ∨
        r ∈ (orderingFields main query).map (·.1) := by
  rw [fieldsOf, List.map_append, List.map_append, List.mem_append, List.mem_append, or_assoc]

/-- The fields of a query: names at the places of its main table, and names behind a dot. -/
theorem origin_of_mem_fieldsOf {query : List Char} (h : r ∈ (fieldsOf main query).map (·.1)) :
    (∃ field : String, r = .ofTable main field ∧
      (StandsIn query field.toList ∨ StandsApart query field.toList)) ∨
    ∃ nick field : String, r = .ofAlias nick field ∧ Dotted query nick.toList field.toList := by
  rcases mem_fieldsOf_iff.mp h with h | h | h
  · exact .inr (dotted_of_mem_dottedFields h)
  · exact .inl (stands_of_mem_placedFields h)
  · obtain ⟨field, rfl, hstands⟩ := standsIn_of_mem_orderingFields h
    exact .inl ⟨field, rfl, .inl hstands⟩

end DesignAudit.Query
