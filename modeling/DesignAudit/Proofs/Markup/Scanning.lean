import DesignAudit.Markup.Reader
import DesignAudit.Proofs.Text.Search

/-!
# Reading names, references and values where more text follows

Each part of a tag is read up to its end and no further: a name up to a character that no name holds
(`takeName_append`), white space up to other characters (`skipSpace_append`), a remark up to its
mark (`splitAt?_append`). A reference that is broken off ends before the character that breaks it
off, so that no reference passes a delimiter (`reference_append`) and an attribute value ends at its
own quote (`attributeValue_append`).
-/

namespace DesignAudit.Markup

/-! ## Names, white space and marks -/

def isName : List Char → Bool
  | [] => false
  | c :: rest => isNameStart c && rest.all isNameChar

theorem isNameChar_of_isNameStart {c : Char} (h : isNameStart c = true) : isNameChar c = true := by
  rw [isNameChar, h]
  rfl

theorem ne_of_isNameStart {c d : Char} (hc : isNameStart c = true) (hd : isNameStart d = false) :
    c ≠ d := by
  rintro rfl
  rw [hd] at hc
  cases hc

theorem exists_of_isName {name : List Char} (h : isName name = true) :
    ∃ c rest, name = c :: rest ∧ isNameStart c = true ∧ ∀ d ∈ name, isNameChar d = true := by
  cases name with
  | nil => cases h
  | cons c rest =>
    rw [isName, Bool.and_eq_true, List.all_eq_true] at h
    exact ⟨c, rest, rfl, h.1, List.forall_mem_cons.mpr ⟨isNameChar_of_isNameStart h.1, h.2⟩⟩

theorem takeName_append {name rest : List Char} (hname : isName name = true)
    (hrest : ∀ c ∈ rest.head?, isNameChar c = false) : takeName (name ++ rest) = (name, rest) := by
  obtain ⟨c, cs, rfl, hstart, hchars⟩ := exists_of_isName hname
  rw [List.cons_append, takeName, if_pos hstart, ← List.cons_append,
    List.span_eq_takeWhile_dropWhile,
    List.takeWhile_append_of_pos hchars, List.dropWhile_append_of_pos hchars]
  cases rest with
  | nil => simp
  | cons d rest => simp [hrest d rfl]

theorem skipSpace_append {s rest : List Char} (hs : ∀ c ∈ s, isSpace c = true)
    (hrest : ∀ c ∈ rest.head?, isSpace c = false) :
    skipSpace (s ++ rest) = (lineFeeds s, rest) := by
  rw [skipSpace, List.takeWhile_append_of_pos hs, List.dropWhile_append_of_pos hs]
  cases rest with
  | nil => simp
  | cons d rest => simp [hrest d rfl]

/-- A mark whose last character stands in it once is found at its first place. -/
theorem splitAt?_append {s body : List Char} {x : Char} (hx : x ∉ s)
    (hbody : ¬ s ++ [x] <:+: body) (rest : List Char) :
    splitAt? (s ++ [x]) (body ++ (s ++ [x] ++ rest)) = some (body, rest) := by
  induction body with
  | nil =>
    have hstarts : (s ++ [x]).isPrefixOf (s ++ [x] ++ rest) = true :=
      List.isPrefixOf_iff_prefix.mpr (List.prefix_append _ rest)
    have hne : s ++ [x] ++ rest ≠ [] := by simp
    obtain ⟨c, more, hcons⟩ := List.exists_cons_of_ne_nil hne
    rw [List.nil_append, hcons, splitAt?, ← hcons, if_pos hstarts, List.drop_left]
  | cons c body ih =>
    have hstarts : ¬ (s ++ [x]).isPrefixOf (c :: (body ++ (s ++ [x] ++ rest))) = true := by
      rw [List.isPrefixOf_iff_prefix, ← List.cons_append]
      intro h
      rcases List.prefix_or_prefix_of_prefix h (List.prefix_append (c :: body) _) with hle | ⟨p, hp⟩
      · exact hbody hle.isInfix
      -- the mark would reach from the body into the mark behind it, and end inside of that one
      rw [← hp, List.prefix_append_right_inj] at h
      have hlength : p.length ≤ s.length := by
        have := congrArg List.length hp
        simp only [List.length_append, List.length_cons, List.length_nil] at this
        omega
      have hps : p <+: s := by
        rw [hp, List.append_assoc] at h
        exact List.prefix_of_prefix_length_le h (List.prefix_append s _) hlength
      rcases List.eq_nil_or_concat p with rfl | ⟨before, last, rfl⟩
      · rw [List.append_nil] at hp
        exact hbody (hp ▸ List.infix_refl _)
      · have hlast := congrArg List.getLast? hp
        simp only [← List.append_assoc, List.concat_eq_append, List.getLast?_append,
          List.getLast?_singleton, Option.some_or, Option.some.injEq] at hlast
        rw [hlast] at hps
        exact hx (hps.subset (by simp))
    rw [List.cons_append, splitAt?, if_neg hstarts,
      ih fun h => hbody (h.trans (List.suffix_cons c body).isInfix)]
    rfl

/-! ## References -/

/-- A character that no reference holds. -/
structure IsDelimiter (d : Char) : Prop where
  name : isNameChar d = false
  digit : ∀ hex, referenceDigit? hex d = none
  mark : d ≠ '#' ∧ d ≠ ';'

theorem isDelimiter_of_mem {d : Char} (h : d ∈ ['"', '\'', '<']) : IsDelimiter d := by
  revert h d
  simp only [List.forall_mem_cons, List.not_mem_nil, false_imp_iff, implies_true, and_true]
  exact ⟨⟨by decide, by decide, by decide⟩, ⟨by decide, by decide, by decide⟩,
    ⟨by decide, by decide, by decide⟩⟩

section References

variable {d : Char} (hd : IsDelimiter d)

include hd

theorem referenceDigits_append (hex : Bool) (value : Nat) (w : List Char) :
    ∃ n w', w' <:+ w ∧
      ∀ rest, referenceDigits hex value (w ++ d :: rest) = (n, w' ++ d :: rest) := by
  induction w generalizing value with
  | nil =>
    refine ⟨none, [], List.suffix_refl _, fun rest => ?_⟩
    rw [List.nil_append, referenceDigits, hd.digit]
    exact hd.mark.2
  | cons c w ih =>
    by_cases hc : c = ';'
    · subst hc
      exact ⟨some value, w, List.suffix_cons _ w, fun rest => rfl⟩
    · cases hdigit : referenceDigit? hex c with
      | none =>
        refine ⟨none, c :: w, List.suffix_refl _, fun rest => ?_⟩
        rw [List.cons_append, referenceDigits, hdigit]
        exact hc
      | some k =>
        obtain ⟨n, w', hw', hread⟩ := ih (min (value * (if hex then 16 else 10) + k) 0x110000)
        refine ⟨n, w', hw'.trans (List.suffix_cons c w), fun rest => ?_⟩
        rw [List.cons_append, referenceDigits, hdigit]
        · exact hread rest
        · exact hc

theorem takeName_append_delimiter (w : List Char) :
    ∃ name w', w' <:+ w ∧ ∀ rest, takeName (w ++ d :: rest) = (name, w' ++ d :: rest) := by
  by_cases hw : w.head?.any isNameStart = true
  · -- the name is the longest beginning of name characters
    refine ⟨w.takeWhile isNameChar, w.dropWhile isNameChar, List.dropWhile_suffix _,
      fun rest => ?_⟩
    have hname : isName (w.takeWhile isNameChar) = true := by
      cases w with
      | nil => cases hw
      | cons c w =>
        have hc : isNameStart c = true := hw
        rw [List.takeWhile_cons_of_pos (isNameChar_of_isNameStart hc), isName, hc, Bool.true_and]
        exact List.all_takeWhile
    have hstop : ∀ c ∈ (w.dropWhile isNameChar ++ d :: rest).head?, isNameChar c = false := by
      cases hdrop : w.dropWhile isNameChar with
      | nil =>
        intro c hc
        rw [← Option.some.inj hc]
        exact hd.name
      | cons x more =>
        intro c hc
        have hhead := List.head?_dropWhile_not isNameChar w
        rw [hdrop] at hhead
        rw [← Option.some.inj hc]
        exact hhead
    rw [← takeName_append hname hstop, ← List.append_assoc, List.takeWhile_append_dropWhile]
  · refine ⟨[], w, List.suffix_refl _, fun rest => ?_⟩
    cases w with
    | nil =>
      have hstart : ¬ isNameStart d = true := fun h => by
        have hname := hd.name
        rw [isNameChar_of_isNameStart h] at hname
        cases hname
      rw [List.nil_append, takeName, if_neg hstart]
    | cons c w =>
      have hstart : ¬ isNameStart c = true := hw
      rw [List.cons_append, takeName, if_neg hstart]

omit hd

/-- A reference by name, given the name and what follows it. -/
def namedReference (name rest : List Char) : List Char × List Char :=
  match rest with
  | ';' :: after =>
    if name.isEmpty then ([], rest) else ((entity? (String.ofList name)).toList, after)
  | _ => ([], rest)

theorem reference_decimal {cs : List Char} (h : cs.head? ≠ some 'x') :
    reference ('#' :: cs) =
      (((referenceDigits false 0 cs).1.bind legalCode?).toList, (referenceDigits false 0 cs).2) := by
  rw [reference]
  rintro rest rfl
  exact h rfl

theorem reference_named {cs : List Char} (h : cs.head? ≠ some '#') :
    reference cs = namedReference (takeName cs).1 (takeName cs).2 := by
  rw [reference]
  · rfl
  · rintro rest rfl
    exact h rfl
  · rintro rest rfl
    exact h rfl

theorem namedReference_of_head {rest : List Char} (h : rest.head? ≠ some ';') (name : List Char) :
    namedReference name rest = ([], rest) := by
  rw [namedReference]
  rintro after rfl
  exact h rfl

include hd

theorem reference_append_named {w : List Char} (hw : w.head? ≠ some '#') :
    ∃ value w', w' <:+ w ∧ ∀ rest, reference (w ++ d :: rest) = (value, w' ++ d :: rest) := by
  obtain ⟨name, w', hw', htaken⟩ := takeName_append_delimiter hd w
  have hread : ∀ rest, reference (w ++ d :: rest) = namedReference name (w' ++ d :: rest) := by
    intro rest
    rw [reference_named, htaken]
    cases w with
    | nil => simpa using hd.mark.1
    | cons c w => exact hw
  simp only [hread]
  by_cases hend : w'.head? = some ';' ∧ name ≠ []
  · obtain ⟨hend, hname⟩ := hend
    obtain ⟨after, rfl⟩ := List.head?_eq_some_iff.mp hend
    refine ⟨(entity? (String.ofList name)).toList, after, (List.suffix_cons _ after).trans hw',
      fun rest => ?_⟩
    rw [List.cons_append, namedReference, if_neg (by simpa using hname)]
  · -- without a name or a semicolon nothing is referred to
    refine ⟨[], w', hw', fun rest => ?_⟩
    cases w' with
    | nil => exact namedReference_of_head (by simpa using hd.mark.2) name
    | cons c w' =>
      by_cases hc : c = ';'
      · subst hc
        have hname : name = [] := by simpa using hend
        rw [hname]
        rfl
      · exact namedReference_of_head (by simpa using hc) name

/-- A reference ends before a delimiter, whatever follows that. -/
theorem reference_append (w : List Char) :
    ∃ value w', w' <:+ w ∧ ∀ rest, reference (w ++ d :: rest) = (value, w' ++ d :: rest) := by
  cases w with
  | nil => exact reference_append_named hd (by simp)
  | cons c w =>
    by_cases hc : c = '#'
    · subst hc
      by_cases hw : w.head? = some 'x'
      · obtain ⟨w, rfl⟩ := List.head?_eq_some_iff.mp hw
        obtain ⟨n, w', hw', hread⟩ := referenceDigits_append hd true 0 w
        refine ⟨(n.bind legalCode?).toList, w',
          hw'.trans ((List.suffix_cons 'x' w).trans (List.suffix_cons '#' _)), fun rest => ?_⟩
        rw [List.cons_append, List.cons_append, reference, hread]
      · obtain ⟨n, w', hw', hread⟩ := referenceDigits_append hd false 0 w
        refine ⟨(n.bind legalCode?).toList, w', hw'.trans (List.suffix_cons '#' w), fun rest => ?_⟩
        rw [List.cons_append, reference_decimal, hread]
        cases w with
        | nil =>
          intro hx
          have hname := hd.name
          rw [Option.some.inj hx] at hname
          revert hname
          decide
        | cons c w => exact hw
    · exact reference_append_named hd (by simpa using hc)

omit hd

/-! ## Attribute values -/

/-- An attribute value as read up to its quote. -/
def valueRead (quote : Char) (value : List Char) : Piece :=
  attributeValue quote (value.length + 1) (value ++ [quote])

/-- The characters that an attribute value in quotes may hold. -/
def IsValue (quote : Char) (value : List Char) : Prop :=
  ∀ c ∈ value, c ≠ quote ∧ c ≠ '<' ∧ isLegal c = true

theorem attributeValue_cons {quote c : Char} (hne : c ≠ quote) (hopen : c ≠ '<')
    (hlegal : isLegal c = true) (fuel : Nat) (cs : List Char) :
    attributeValue quote (fuel + 1) (c :: cs) =
      if c = '&' then
        let more := attributeValue quote fuel (reference cs).2
        { more with value := (reference cs).1 ++ more.value }
      else if c = '\r' ∧ cs.head? = some '\n' then attributeValue quote fuel cs
      else
        let more := attributeValue quote fuel cs
        { more with
          value := (if isSpace c then ' ' else c) :: more.value
          lines := (if c == '\n' then 1 else 0) + more.lines } := by
  simp [attributeValue, hne, hopen, hlegal]

theorem exists_attributeValue_append {quote : Char} (hquote : IsDelimiter quote)
    {value : List Char} (hvalue : IsValue quote value) :
    ∃ text lines, ∀ fuel rest, value.length < fuel →
      attributeValue quote fuel (value ++ quote :: rest) = ⟨text, lines, rest⟩ := by
  -- a reference takes several characters at once, so the induction is on the length of the value
  induction hlength : value.length using Nat.strongRecOn generalizing value with
  | ind n ih =>
    cases value with
    | nil =>
      refine ⟨[], 0, fun fuel rest hfuel => ?_⟩
      obtain ⟨k, rfl⟩ := Nat.exists_eq_add_one.mpr (Nat.zero_lt_of_lt hfuel)
      simp [attributeValue]
    | cons c value =>
      rw [List.length_cons] at hlength
      obtain ⟨⟨hne, hopen, hlegal⟩, hvalue⟩ := List.forall_mem_cons.mp hvalue
      have hpred : ∀ {fuel}, n < fuel → ∃ k, fuel = k + 1 ∧ value.length < k :=
        fun {fuel} hfuel => ⟨fuel - 1, by omega, by omega⟩
      by_cases hamp : c = '&'
      · obtain ⟨text, after, hafter, href⟩ := reference_append hquote value
        have hle := hafter.length_le
        obtain ⟨more, lines, hmore⟩ := ih after.length (by omega)
          (fun x hx => hvalue x (hafter.subset hx)) rfl
        refine ⟨text ++ more, lines, fun fuel rest hfuel => ?_⟩
        obtain ⟨k, rfl, hk⟩ := hpred hfuel
        rw [List.cons_append, attributeValue_cons hne hopen hlegal, if_pos hamp, href,
          hmore k rest (by omega)]
      · obtain ⟨more, lines, hmore⟩ := ih value.length (by omega) hvalue rfl
        have hhead : ∀ rest, (value ++ quote :: rest).head? = (value ++ [quote]).head? := by
          intro rest
          cases value with
          | nil => rfl
          | cons x value => rfl
        by_cases hreturn : c = '\r' ∧ (value ++ [quote]).head? = some '\n'
        · refine ⟨more, lines, fun fuel rest hfuel => ?_⟩
          obtain ⟨k, rfl, hk⟩ := hpred hfuel
          rw [List.cons_append, attributeValue_cons hne hopen hlegal, if_neg hamp, hhead,
            if_pos hreturn, hmore k rest hk]
        · refine ⟨(if isSpace c then ' ' else c) :: more, (if c == '\n' then 1 else 0) + lines,
            fun fuel rest hfuel => ?_⟩
          obtain ⟨k, rfl, hk⟩ := hpred hfuel
          rw [List.cons_append, attributeValue_cons hne hopen hlegal, if_neg hamp, hhead,
            if_neg hreturn, hmore k rest hk]

/-- A value ends at its quote: what is read does not depend on what follows. -/
theorem attributeValue_append {quote : Char} (hquote : IsDelimiter quote) {value : List Char}
    (hvalue : IsValue quote value) {fuel : Nat} (hfuel : value.length < fuel) (rest : List Char) :
    attributeValue quote fuel (value ++ quote :: rest) = { valueRead quote value with rest } := by
  obtain ⟨text, lines, hread⟩ := exists_attributeValue_append hquote hvalue
  rw [valueRead, hread fuel rest hfuel, hread (value.length + 1) [] (Nat.lt_succ_self _)]

/-! ## Text passed by a reference -/

theorem exists_referenceDigits (hex : Bool) (value : Nat) (cs : List Char) :
    ∃ u, cs = u ++ (referenceDigits hex value cs).2 ∧ '<' ∉ u := by
  fun_induction referenceDigits hex value cs with
  | case1 value => exact ⟨[], rfl, List.not_mem_nil⟩
  | case2 value rest => exact ⟨[';'], rfl, by decide⟩
  | case3 value c rest hc d hd ih =>
    obtain ⟨u, hu, hopen⟩ := ih
    refine ⟨c :: u, by rw [List.cons_append, ← hu], fun h => ?_⟩
    rcases List.mem_cons.mp h with rfl | h
    · rw [(isDelimiter_of_mem (by decide)).digit] at hd
      cases hd
    · exact hopen h
  | case4 value c rest hc hd => exact ⟨[], rfl, List.not_mem_nil⟩

theorem exists_takeName (cs : List Char) :
    cs = (takeName cs).1 ++ (takeName cs).2 ∧ '<' ∉ (takeName cs).1 := by
  cases cs with
  | nil => exact ⟨rfl, List.not_mem_nil⟩
  | cons c rest =>
    rw [takeName]
    split
    · rw [List.span_eq_takeWhile_dropWhile]
      refine ⟨List.takeWhile_append_dropWhile.symm, fun h => ?_⟩
      have hname := List.all_eq_true.mp List.all_takeWhile _ h
      revert hname
      decide
    · exact ⟨rfl, List.not_mem_nil⟩

theorem exists_reference_named {cs : List Char} (h : cs.head? ≠ some '#') :
    ∃ u, cs = u ++ (reference cs).2 ∧ '<' ∉ u := by
  obtain ⟨htaken, hopen⟩ := exists_takeName cs
  rw [reference_named h]
  by_cases hend : (takeName cs).2.head? = some ';'
  · obtain ⟨after, hafter⟩ := List.head?_eq_some_iff.mp hend
    rw [hafter] at htaken ⊢
    rw [namedReference]
    split
    · exact ⟨(takeName cs).1, htaken, hopen⟩
    · exact ⟨(takeName cs).1 ++ [';'], by simpa using htaken, by simpa using hopen⟩
  · rw [namedReference_of_head hend]
    exact ⟨(takeName cs).1, htaken, hopen⟩

/-- What a reference takes from the text has no mark of a tag in it. -/
theorem exists_reference (cs : List Char) : ∃ u, cs = u ++ (reference cs).2 ∧ '<' ∉ u := by
  cases cs with
  | nil => exact exists_reference_named (by simp)
  | cons c rest =>
    by_cases hc : c = '#'
    · subst hc
      by_cases hx : rest.head? = some 'x'
      · obtain ⟨rest, rfl⟩ := List.head?_eq_some_iff.mp hx
        obtain ⟨u, hu, hopen⟩ := exists_referenceDigits true 0 rest
        refine ⟨'#' :: 'x' :: u, ?_, by simpa using hopen⟩
        rw [reference, List.cons_append, List.cons_append, ← hu]
      · obtain ⟨u, hu, hopen⟩ := exists_referenceDigits false 0 rest
        refine ⟨'#' :: u, ?_, by simpa using hopen⟩
        rw [reference_decimal hx, List.cons_append, ← hu]
    · exact exists_reference_named (by simpa using hc)

end References

end DesignAudit.Markup
