import DesignAudit.Proofs.Markup.Encoded
import DesignAudit.Proofs.Markup.Growth

/-!
# The structure of a written document

The text behind a piece of markup takes the reader some steps and changes nothing
(`exists_content_text`), so that the content of a document makes the changes of its pieces of markup
in their order (`bare_content`). With the prolog passed (`exists_skipProlog_written`) and the
encoding that a declaration names taken into account, the structure of the tree is known from the
changes alone (`Document.bare_read`).
-/

namespace DesignAudit.Markup

open Text (unifyLineEnds)

/-! ## Text between pieces of markup -/

/-- A reading has passed some text, without any change of the structure. -/
structure Passed (u : List Char) (r s : Reading) : Prop where
  rest : r.rest = u ++ s.rest
  text : '<' ∉ u
  bare : s.bare = r.bare
  size : s.size = r.size

namespace Passed

variable {u v : List Char} {r s t : Reading}

theorem goTo (hrest : r.rest = u ++ v) (htext : '<' ∉ u) (lines : Nat) :
    Passed u r (r.goTo lines v) :=
  ⟨hrest, htext, rfl, rfl⟩

theorem modify (h : Passed u r s) {f : OpenElement → OpenElement} (hf : ∀ e, (f e).bare = e.bare) :
    Passed u r (s.modify f) := by
  have hkeeps : (s.modify f).rest = s.rest ∧ (s.modify f).size = s.size := by
    obtain ⟨size, line, rest, stack, root⟩ := s
    cases stack with
    | nil => exact ⟨rfl, rfl⟩
    | cons e outer => exact ⟨rfl, rfl⟩
  exact ⟨hkeeps.1 ▸ h.rest, h.text, (Reading.bare_modify hf s).trans h.bare,
    hkeeps.2.trans h.size⟩

theorem trans (h : Passed u r s) (h' : Passed v s t) : Passed (u ++ v) r t where
  rest := by rw [h.rest, h'.rest, List.append_assoc]
  text := by simpa using ⟨h.text, h'.text⟩
  bare := h'.bare.trans h.bare
  size := h'.size.trans h.size

end Passed

theorem takePlain_eq (cs : List Char) :
    cs = (Reading.takePlain cs).1 ++ (Reading.takePlain cs).2.1 ∧ '<' ∉ (Reading.takePlain cs).1 ∧
      ((Reading.takePlain cs).2.2 = true → (Reading.takePlain cs).2.1.head? = some ']') := by
  induction cs with
  | nil => exact ⟨rfl, List.not_mem_nil, fun h => by cases h⟩
  | cons c rest ih =>
    rw [Reading.takePlain]
    split
    · rename_i hmark
      rw [List.isPrefixOf_iff_prefix, List.cons_prefix_cons] at hmark
      exact ⟨rfl, List.not_mem_nil, fun _ => by rw [hmark.1]; rfl⟩
    · split
      · rename_i hplain
        have hc : '<' ≠ c := by
          rintro rfl
          revert hplain
          decide
        exact ⟨congrArg (c :: ·) ih.1, by simpa using ⟨hc, ih.2.1⟩, ih.2.2⟩
      · exact ⟨rfl, List.not_mem_nil, fun h => by cases h⟩

variable {c : Char} {cs lead tail : List Char} {fuel : Nat} {r : Reading}

theorem exists_passed_anyText (hrest : r.rest = c :: cs)
    (hopen : c ≠ '<') (hamp : c ≠ '&') : ∃ u, u ≠ [] ∧ Passed u r r.anyText := by
  rw [Reading.anyText]
  generalize hp : (fun c : Char => c != '<' && c != '&' && isLegal c) = p
  have hrun : '<' ∉ r.rest.takeWhile p := by
    intro h
    have hplain := List.all_eq_true.mp List.all_takeWhile _ h
    rw [← hp] at hplain
    cases hplain
  have hsplit : r.rest = r.rest.takeWhile p ++ r.rest.dropWhile p :=
    List.takeWhile_append_dropWhile.symm
  have hbare : ∀ e : OpenElement, (e.addRun true (unifyLineEnds (r.rest.takeWhile p))
      (r.rest.dropWhile p)).bare = e.bare := fun e => OpenElement.bare_addRun e _ _ _
  cases hdrop : r.rest.dropWhile p with
  | nil =>
    rw [hdrop] at hsplit hbare
    refine ⟨r.rest.takeWhile p, fun h => ?_, (Passed.goTo hsplit hrun _).modify hbare⟩
    rw [h, hrest] at hsplit
    cases hsplit
  | cons d more =>
    rw [hdrop] at hsplit hbare
    dsimp only
    split
    · rename_i hd
      refine ⟨r.rest.takeWhile p, fun h => ?_, (Passed.goTo hsplit hrun _).modify hbare⟩
      -- the first character is neither of the two
      rw [h, hrest] at hsplit
      simp [← (List.cons.inj hsplit).1, hopen, hamp] at hd
    · rename_i hd
      have hne : '<' ≠ d := by
        rintro rfl
        exact hd rfl
      refine ⟨r.rest.takeWhile p ++ [d], by simp, (Passed.goTo ?_ ?_ _).modify hbare⟩
      · rw [List.append_assoc]
        exact hsplit
      · simpa using ⟨hrun, hne⟩

theorem exists_passed_plainText (hrest : r.rest = c :: cs)
    (hopen : c ≠ '<') (hamp : c ≠ '&') : ∃ u, u ≠ [] ∧ Passed u r r.plainText := by
  obtain ⟨hsplit, hrun, hmark⟩ := takePlain_eq r.rest
  rw [Reading.plainText]
  generalize Reading.takePlain r.rest = taken at hsplit hrun hmark
  obtain ⟨run, rest, mark⟩ := taken
  dsimp only at hsplit hrun hmark ⊢
  split
  · rename_i hmarked
    obtain ⟨more, rfl⟩ := List.head?_eq_some_iff.mp (hmark hmarked)
    refine ⟨run ++ [']'], by simp, ⟨?_, by simpa using hrun, rfl, rfl⟩⟩
    rw [hsplit, List.append_assoc]
    rfl
  · have hpassed : Passed run r ((r.goTo (lineFeeds run) rest).modify (·.addRun false run rest)) :=
      (Passed.goTo hsplit hrun _).modify fun e => OpenElement.bare_addRun e _ _ _
    generalize (r.goTo (lineFeeds run) rest).modify (·.addRun false run rest) = s at hpassed
    have hs : s.rest = rest := List.append_cancel_left (hpassed.rest.symm.trans hsplit)
    split
    · rename_i more
      refine ⟨run ++ ['\r'], by simp, ⟨?_, by simpa using hrun, hpassed.bare, hpassed.size⟩⟩
      rw [hsplit, List.append_assoc]
      rfl
    · rename_i d more _
      split
      · rename_i hd
        refine ⟨run, ?_, hpassed⟩
        rintro rfl
        -- the first character is neither of the two
        rw [hrest] at hsplit
        simp [← (List.cons.inj hsplit).1, hopen, hamp] at hd
      · rename_i hd
        simp only [Bool.or_eq_true, beq_iff_eq, not_or] at hd
        obtain ⟨u, hu, hmore⟩ := exists_passed_anyText hs hd.1 hd.2
        exact ⟨run ++ u, by simpa using fun _ => hu, hpassed.trans hmore⟩
    · refine ⟨run, ?_, hpassed⟩
      rintro rfl
      rw [hrest] at hsplit
      cases hsplit

/-- A step at a character that opens no tag passes some text. -/
theorem exists_passed_step (hrest : r.rest = c :: cs)
    (hopen : c ≠ '<') : ∃ u, u ≠ [] ∧ Passed u r r.step := by
  by_cases hamp : c = '&'
  · subst hamp
    obtain ⟨u, hu, htext⟩ := exists_reference cs
    have hstep : r.step = Reading.modify { r with rest := (reference cs).2 } fun e =>
        if (reference cs).1.isEmpty then e else e.addText (reference cs).1 := by
      rw [Reading.step, hrest]
      rfl
    have hpassed : Passed ('&' :: u) r { r with rest := (reference cs).2 } :=
      ⟨by rw [hrest, List.cons_append, ← hu], by simpa using htext, rfl, rfl⟩
    rw [hstep]
    refine ⟨'&' :: u, List.cons_ne_nil _ _, hpassed.modify fun e => ?_⟩
    split
    · rfl
    · exact OpenElement.bare_addText e _
  · have hstep : r.step = r.plainText := by
      rw [Reading.step, hrest]
      split <;> simp_all
    rw [hstep]
    exact exists_passed_plainText hrest hopen hamp

theorem content_of_rest (h : r.rest = []) (fuel : Nat) :
    Reading.content fuel r = r := by
  cases fuel with
  | zero => rfl
  | succ fuel => rw [Reading.content, h, List.isEmpty_nil, Bool.true_or, if_pos rfl]

theorem content_of_stack (h : r.stack = []) (fuel : Nat) :
    Reading.content fuel r = r := by
  cases fuel with
  | zero => rfl
  | succ fuel => rw [Reading.content, h, List.isEmpty_nil, Bool.or_true, if_pos rfl]

theorem content_step (hrest : r.rest ≠ []) (hstack : r.stack ≠ []) (fuel : Nat) :
    Reading.content (fuel + 1) r = Reading.content fuel r.step := by
  rw [Reading.content, if_neg]
  simpa using ⟨hrest, hstack⟩

theorem stack_eq_nil_iff_of_bare {r s : Reading} (h : s.bare = r.bare) :
    s.stack = [] ↔ r.stack = [] := by
  have hstack := congrArg Reading.stack h
  simp only [Reading.bare] at hstack
  rw [← List.map_eq_nil_iff, hstack, List.map_eq_nil_iff]

/-- Text without a mark of a tag ends before the next one. -/
theorem exists_eq_append {u v a tail : List Char} (h : u ++ v = a ++ tail) (hu : '<' ∉ u)
    (htail : tail = [] ∨ tail.head? = some '<') : ∃ b, a = u ++ b ∧ v = b ++ tail := by
  rcases List.append_eq_append_iff.mp h with ⟨b, ha, hv⟩ | ⟨b, rfl, htail'⟩
  · exact ⟨b, ha, hv⟩
  · cases b with
    | nil => exact ⟨[], by simp, htail'.symm⟩
    | cons x b =>
      exfalso
      rcases htail with rfl | hhead
      · cases htail'
      · rw [htail'] at hhead
        exact hu (by simp [Option.some.inj hhead])

/-- The text before the next piece of markup is passed, in as many steps as it takes. -/
theorem exists_content_text {after tail : List Char} (hafter : '<' ∉ after)
    (htail : tail = [] ∨ tail.head? = some '<') (hrest : r.rest = after ++ tail)
    (hstack : r.stack ≠ []) (hfuel : r.rest.length < fuel) :
    ∃ s k, Reading.content fuel r = Reading.content k s ∧ s.rest = tail ∧ tail.length < k ∧
      s.bare = r.bare ∧ s.size = r.size ∧ s.MoreText r := by
  induction hlength : after.length using Nat.strongRecOn generalizing after r fuel with
  | ind n ih =>
    cases after with
    | nil => exact ⟨r, fuel, rfl, hrest, by rwa [hrest] at hfuel, rfl, rfl, .refl r⟩
    | cons c cs =>
      have hopen : c ≠ '<' := fun h => hafter (h ▸ List.mem_cons_self)
      obtain ⟨u, hu, hpassed⟩ := exists_passed_step hrest hopen
      obtain ⟨more, hmore, hstep⟩ :=
        exists_eq_append (hpassed.rest.symm.trans hrest) hpassed.text htail
      have hpos : 0 < u.length := List.length_pos_iff.mpr hu
      have hall := congrArg List.length hpassed.rest
      have hcut := congrArg List.length hmore
      rw [List.length_append] at hall hcut
      obtain ⟨k, rfl, hk⟩ : ∃ k, fuel = k + 1 ∧ r.step.rest.length < k :=
        ⟨fuel - 1, by omega, by omega⟩
      rw [content_step (by simp [hrest]) hstack]
      obtain ⟨s, j, hcontent, hs, hj, hbare, hsize, hmoreText⟩ := ih more.length (by omega)
        (fun h => hafter (hmore ▸ List.mem_append_right u h)) hstep
        (fun h => hstack ((stack_eq_nil_iff_of_bare hpassed.bare).mp h)) hk rfl
      exact ⟨s, j, hcontent, hs, hj, hbare.trans hpassed.bare, hsize.trans hpassed.size,
        hmoreText.trans (moreText_step hrest hopen)⟩

/-! ## Content -/

theorem head?_segments (segments : List Segment) :
    segments.flatMap Segment.text = [] ∨ (segments.flatMap Segment.text).head? = some '<' := by
  cases segments with
  | nil => exact .inl rfl
  | cons s segments =>
    right
    obtain ⟨mark, after⟩ := s
    cases mark <;> rfl

theorem text_ne_nil (m : Mark) : m.text ≠ [] := by
  cases m <;> exact List.cons_ne_nil _ _

/-- Reading the content makes the changes of the pieces of markup in it, one after the other. -/
theorem bare_content {segments : List Segment} (hsegments : ∀ s ∈ segments, s.WellFormed)
    {after : List Char} (hafter : '<' ∉ after)
    (hrest : r.rest = after ++ segments.flatMap Segment.text) (hsize : r.rest.length ≤ r.size)
    (hfuel : r.rest.length < fuel) :
    (Reading.content fuel r).bare = Change.run (segments.map (·.mark.change)) r.bare := by
  induction segments generalizing after r fuel with
  | nil =>
    by_cases hstack : r.stack = []
    · rw [content_of_stack hstack]
      rfl
    · obtain ⟨s, k, hcontent, hs, -, hbare, -, -⟩ :=
        exists_content_text hafter (head?_segments []) hrest hstack hfuel
      rw [hcontent, content_of_rest hs, hbare]
      rfl
  | cons segment segments ih =>
    by_cases hstack : r.stack = []
    · rw [content_of_stack hstack, Change.run_of_stack]
      rw [Reading.bare, hstack, List.map_nil]
    · obtain ⟨s, k, hcontent, hs, hk, hbare, hssize, -⟩ :=
        exists_content_text hafter (head?_segments _) hrest hstack hfuel
      obtain ⟨hmark, hwithin, htext⟩ := hsegments segment List.mem_cons_self
      have hstack' : s.stack ≠ [] := fun h => hstack ((stack_eq_nil_iff_of_bare hbare).mp h)
      have hsplit : s.rest =
          segment.mark.text ++ (segment.after ++ segments.flatMap Segment.text) := by
        rw [hs, List.flatMap_cons, Segment.text, List.append_assoc]
      have hne : segment.mark.text ≠ [] := text_ne_nil segment.mark
      have hpos : 0 < segment.mark.text.length := List.length_pos_iff.mpr hne
      have hall := congrArg List.length (hs ▸ hrest)
      have hlength := congrArg List.length hsplit
      rw [List.length_append] at hall hlength
      rw [← hs] at hk
      obtain ⟨j, rfl⟩ : ∃ j, k = j + 1 := ⟨k - 1, by omega⟩
      obtain ⟨hsize', hfollows⟩ := follows_step hmark hwithin hsplit (by omega) hstack'
      have hopen : r.bare.stack ≠ [] := by simpa [Reading.bare] using hstack
      rw [hcontent, content_step (by simp [hsplit, hne]) hstack', List.map_cons]
      cases hchange : segment.mark.change.apply r.bare with
      | none =>
        rw [hbare, hchange] at hfollows
        rw [content_of_rest hfollows.2, Change.run_cons_of_none hchange, hfollows.1]
      | some b =>
        rw [hbare, hchange] at hfollows
        obtain ⟨hb, hrest' | hclosed⟩ := hfollows
        · rw [ih (fun t ht => hsegments t (List.mem_cons_of_mem segment ht)) htext hrest'
            (by rw [hrest', hsize', hssize]; omega) (by rw [hrest']; omega), hb,
            Change.run_cons_of_some hopen hchange]
        · rw [content_of_stack hclosed, Change.run_cons_of_some hopen hchange, hb,
            Change.run_of_stack]
          rw [← hb, Reading.bare, hclosed, List.map_nil]

/-! ## The prolog -/

/-- Outside of the root a remark is passed and leaves nothing. -/
theorem remark_of_stack {s content tail : List Char} {x : Char} (hx : x ∉ s)
    (hcontent : ¬ s ++ [x] <:+: content) (hstack : r.stack = []) (kind : Kind)
    (label : String) :
    r.remark kind label (s ++ [x]) (content ++ (s ++ [x] ++ tail)) =
      r.goTo (lineFeeds content) tail := by
  obtain ⟨size, line, rest, stack, root⟩ := r
  subst hstack
  rw [Reading.remark, splitAt?_append hx hcontent]
  rfl

theorem skipSpace_before_tag (hlead : IsBlank lead)
    (htail : tail.head? = some '<') : skipSpace (lead ++ tail) = (lineFeeds lead, tail) := by
  refine skipSpace_append hlead fun c hc => ?_
  rw [htail] at hc
  rw [← Option.some.inj hc]
  decide

/-- A document type declaration without declarations in it ends at the first closing bracket. -/
theorem skipProlog_doctype {text : List Char} (hm : (Mark.doctype text).WellFormed)
    (hlead : IsBlank lead)
    (hrest : r.rest = lead ++ ((Mark.doctype text).text ++ tail)) (fuel : Nat) :
    ∃ lines, skipProlog (fuel + 1) r = skipProlog fuel (r.goTo lines tail) := by
  obtain ⟨hclose, hopen⟩ := hm
  generalize hword : ['D', 'O', 'C', 'T', 'Y', 'P', 'E'] ++ text = words
  have hcloses : '>' ∉ words := by
    rw [← hword, List.mem_append, not_or]
    exact ⟨by decide, hclose⟩
  have hsplit : r.rest = lead ++ '<' :: '!' :: (words ++ '>' :: tail) := by
    simp [hrest, Mark.text, ← hword]
  have hbegin : "DOCTYPE".toList.isPrefixOf (words ++ '>' :: tail) = true := by
    rw [List.isPrefixOf_iff_prefix, ← hword, List.append_assoc]
    exact List.prefix_append _ _
  have hhead : (words ++ '>' :: tail).takeWhile (· != '>') = words := by
    have hother : ∀ c ∈ words, (c != '>') = true := by
      intro c hc
      rw [bne_iff_ne]
      rintro rfl
      exact hcloses hc
    rw [List.takeWhile_append_of_pos hother]
    simp
  have hplain : ¬ words.contains '[' = true := by
    rw [List.contains_iff_mem, ← hword, List.mem_append, not_or]
    exact ⟨by decide, hopen⟩
  have hpassed : splitAt? (([] : List Char) ++ ['>']) (words ++ '>' :: tail) = some (words, tail) :=
    @splitAt?_append [] words '>' List.not_mem_nil
      (fun h => hcloses (h.subset List.mem_cons_self)) tail
  -- a declaration is not taken for a comment
  have hdash : ∀ rest, words ++ '>' :: tail ≠ '-' :: '-' :: rest := by
    intro rest h
    rw [← hword] at h
    exact absurd (List.cons.inj h).1 (by decide)
  refine ⟨lineFeeds lead + lineFeeds words, ?_⟩
  rw [skipProlog, hsplit, skipSpace_before_tag hlead rfl]
  simp only [Reading.goTo, hbegin, hhead, hplain, if_true, Bool.false_eq_true, if_false, hpassed,
    Nat.add_assoc]

/-- A piece of markup before the root is passed with the white space before it. -/
theorem exists_skipProlog_mark {m : Mark} (hbefore : m.beforeRoot = true) (hm : m.WellFormed)
    (hlead : IsBlank lead)
    (hrest : r.rest = lead ++ (m.text ++ tail)) (hstack : r.stack = []) (fuel : Nat) :
    ∃ lines, skipProlog (fuel + 1) r = skipProlog fuel (r.goTo lines tail) := by
  cases m with
  | start t => cases hbefore
  | stop name space => cases hbefore
  | literal text => cases hbefore
  | comment text =>
    have hsplit : r.rest =
        lead ++ '<' :: '!' :: '-' :: '-' :: (text ++ '-' :: '-' :: '>' :: tail) := by
      simp [hrest, Mark.text]
    have hpass := @remark_of_stack
      (r.goTo (lineFeeds lead) ('<' :: '!' :: '-' :: '-' :: (text ++ '-' :: '-' :: '>' :: tail)))
      ['-', '-'] text tail '>' (by decide) hm hstack .comment Node.commentLabel
    refine ⟨lineFeeds lead + lineFeeds text, ?_⟩
    rw [skipProlog, hsplit, skipSpace_before_tag hlead rfl]
    refine (congrArg (skipProlog fuel) hpass).trans ?_
    simp [Reading.goTo, Nat.add_assoc]
  | instruction target space text =>
    have hsplit : r.rest =
        lead ++ '<' :: '?' :: (target ++ (space ++ (text ++ '?' :: '>' :: tail))) := by
      simp [hrest, Mark.text]
    obtain ⟨-, -, -, -, hmark, -⟩ := id hm
    have hpass := @remark_of_stack
      (r.goTo (lineFeeds lead + lineFeeds space) (text ++ '?' :: '>' :: tail)) ['?'] text tail '>'
      (by decide) hmark hstack .instruction
      Node.instructionLabel
    refine ⟨lineFeeds lead + lineFeeds space + lineFeeds text, ?_⟩
    rw [skipProlog, hsplit, skipSpace_before_tag hlead rfl]
    simp only [Reading.goTo, instruction_written hm]
    refine (congrArg (skipProlog fuel) ?_).trans
      ((congrArg (skipProlog fuel) hpass).trans ?_)
    · simp [Reading.goTo, Nat.add_assoc]
    · simp [Reading.goTo, Nat.add_assoc]
  | doctype text => exact skipProlog_doctype hm hlead hrest fuel

/-- All before the root is passed. -/
theorem exists_skipProlog_written {prolog : List Segment}
    (hprolog : ∀ s ∈ prolog, s.mark.beforeRoot = true ∧ s.mark.WellFormed ∧ IsBlank s.after)
    (hlead : IsBlank lead) (hc : isNameStart c = true)
    (hrest : r.rest = lead ++ (prolog.flatMap Segment.text ++ '<' :: c :: cs))
    (hstack : r.stack = []) (hfuel : prolog.length < fuel) :
    ∃ line, skipProlog fuel r = { r with line, rest := '<' :: c :: cs } := by
  induction prolog generalizing lead r fuel with
  | nil =>
    obtain ⟨k, rfl⟩ : ∃ k, fuel = k + 1 := ⟨fuel - 1, by omega⟩
    have hsigns : c ≠ '?' ∧ c ≠ '!' :=
      ⟨ne_of_isNameStart hc (by decide), ne_of_isNameStart hc (by decide)⟩
    refine ⟨r.line + lineFeeds lead, ?_⟩
    rw [skipProlog, hrest, List.flatMap_nil, List.nil_append, skipSpace_before_tag hlead rfl]
    simp [Reading.goTo, hsigns]
  | cons segment prolog ih =>
    rw [List.length_cons] at hfuel
    obtain ⟨k, rfl, hk⟩ : ∃ k, fuel = k + 1 ∧ prolog.length < k := ⟨fuel - 1, by omega, by omega⟩
    obtain ⟨hbefore, hmark, hafter⟩ := hprolog segment List.mem_cons_self
    rw [List.flatMap_cons, Segment.text, List.append_assoc, List.append_assoc] at hrest
    obtain ⟨lines, hpass⟩ := exists_skipProlog_mark hbefore hmark hlead hrest hstack k
    rw [hpass]
    -- the white space behind the markup takes the place of the lead
    exact ih (fun s hs => hprolog s (List.mem_cons_of_mem segment hs)) hafter
      (r := r.goTo lines (segment.after ++ (prolog.flatMap Segment.text ++ '<' :: c :: cs)))
      rfl hstack hk

/-! ## The tree -/

namespace Document

/-- The structure that the changes of a document make, one after the other. -/
def outline (d : Document) : Option Node :=
  ((Mark.start d.root).change.apply { size := 0, line := 0, rest := [] }).bind fun opened =>
    (Change.run (d.segments.map (·.mark.change)) opened).finish

/-- A document that declares ASCII has no other characters. -/
def Encoded (d : Document) : Prop :=
  ∀ name ∈ declaredEncoding? d.text, name ∈ asciiNames → IsAscii d.text

/-- The document as it is read in its encoding. -/
def decoded (d : Document) : Document :=
  if isBytewise (declaredEncoding? d.text) then d.inBytes else d

instance (d : Document) : Decidable d.Encoded := inferInstanceAs (Decidable (∀ _ ∈ _, _))

variable {d : Document}

/-- A document begins with white space or with a mark of a tag and a character that goes with it. -/
theorem exists_text_eq (hd : d.WellFormed) :
    ∃ c rest, d.text = c :: rest ∧ (isSpace c = true ∨ c = '<' ∧
      ∃ x more, rest = x :: more ∧ (x = '?' ∨ x = '!' ∨ isNameStart x = true)) := by
  obtain ⟨lead, prolog, root, after, segments⟩ := d
  cases lead with
  | cons c lead => exact ⟨c, _, rfl, .inl (hd.lead c List.mem_cons_self)⟩
  | nil =>
    cases prolog with
    | cons segment prolog =>
      have hbefore := (hd.prolog segment List.mem_cons_self).1
      obtain ⟨mark, blank⟩ := segment
      cases mark with
      | start t => cases hbefore
      | stop name space => cases hbefore
      | literal text => cases hbefore
      | comment text => exact ⟨'<', _, rfl, .inr ⟨rfl, '!', _, rfl, .inr (.inl rfl)⟩⟩
      | instruction target space text => exact ⟨'<', _, rfl, .inr ⟨rfl, '?', _, rfl, .inl rfl⟩⟩
      | doctype text => exact ⟨'<', _, rfl, .inr ⟨rfl, '!', _, rfl, .inr (.inl rfl)⟩⟩
    | nil =>
      obtain ⟨name, attributes, space, closed⟩ := root
      obtain ⟨x, cs, rfl, hx, -⟩ := exists_of_isName hd.root.name
      exact ⟨'<', _, rfl, .inr ⟨rfl, x, _, rfl, .inr (.inr hx)⟩⟩

theorem pairedOrder?_text (hd : d.WellFormed) : pairedOrder? d.text = none := by
  obtain ⟨c, rest, htext, hc⟩ := exists_text_eq hd
  have hsecond : c = '<' → rest.head? ≠ some '\x00' := by
    rintro rfl hhead
    obtain hspace | ⟨-, x, more, rfl, hx⟩ := hc
    · cases hspace
    · obtain rfl := Option.some.inj hhead
      revert hx
      decide
  have hfirst : c ≠ '\x00' := by
    rintro rfl
    obtain hspace | ⟨hopen, -⟩ := hc
    · cases hspace
    · cases hopen
  rw [htext]
  rcases rest with _ | ⟨x, _ | ⟨y, _ | ⟨z, more⟩⟩⟩
  · rfl
  · rfl
  · rfl
  · rw [pairedOrder?, if_neg, if_neg]
    · intro h
      exact hfirst (List.cons.inj h).1
    · intro h
      obtain ⟨hopen, hrest⟩ := List.cons.inj h
      exact hsecond hopen (congrArg some (List.cons.inj hrest).1)

theorem dropMark_text (hd : d.WellFormed) : dropMark d.text = d.text := by
  obtain ⟨c, rest, htext, hc⟩ := exists_text_eq hd
  have hmark : ¬ (c.toNat == 0xFEFF) = true := by
    obtain hspace | ⟨rfl, -⟩ := hc
    · rcases isSpace_cases hspace with rfl | rfl | rfl | rfl <;> decide
    · decide
  rw [htext, dropMark, if_neg hmark]

/-- The encoding is the one that an instruction at the very beginning names. -/
theorem declaredEncoding?_text (hd : d.WellFormed) :
    declaredEncoding? d.text =
      if d.lead = [] then d.prolog.head?.bind (·.mark.encoding?) else none := by
  obtain ⟨lead, prolog, root, after, segments⟩ := d
  cases lead with
  | cons c lead =>
    have hc : c ≠ '<' := by
      rintro rfl
      exact absurd (hd.lead '<' List.mem_cons_self) (by decide)
    rw [if_neg (List.cons_ne_nil c lead)]
    exact declaredEncoding?_of_not_prefix fun h => hc (List.cons_prefix_cons.mp h).1.symm
  | nil =>
    rw [if_pos rfl]
    cases prolog with
    | nil =>
      obtain ⟨name, attributes, space, closed⟩ := root
      obtain ⟨c, cs, rfl, hc, -⟩ := exists_of_isName hd.root.name
      refine declaredEncoding?_of_not_prefix fun h => ?_
      have hsecond := (List.cons_prefix_cons.mp (List.cons_prefix_cons.mp h).2).1
      exact ne_of_isNameStart hc (by decide) hsecond.symm
    | cons segment prolog =>
      obtain ⟨hbefore, hmark, -⟩ := hd.prolog segment List.mem_cons_self
      obtain ⟨mark, blank⟩ := segment
      cases mark with
      | start t => cases hbefore
      | stop name space => cases hbefore
      | literal text => cases hbefore
      | comment text =>
        refine declaredEncoding?_of_not_prefix fun h => ?_
        exact absurd (List.cons_prefix_cons.mp (List.cons_prefix_cons.mp h).2).1 (by decide)
      | instruction target space text =>
        have hinstruction := declaredEncoding?_instruction hmark
          (blank ++ (prolog.flatMap Segment.text ++ (root.text ++
            (after ++ segments.flatMap Segment.text))))
        rw [List.head?_cons, Option.bind_some, ← hinstruction]
        simp [Document.text, Segment.text, Document.body]
      | doctype text =>
        refine declaredEncoding?_of_not_prefix fun h => ?_
        exact absurd (List.cons_prefix_cons.mp (List.cons_prefix_cons.mp h).2).1 (by decide)

theorem length_le_flatMap_text (segments : List Segment) :
    segments.length ≤ (segments.flatMap Segment.text).length := by
  induction segments with
  | nil => exact Nat.le_refl 0
  | cons s segments ih =>
    have hpos : 0 < s.mark.text.length := List.length_pos_iff.mpr (text_ne_nil s.mark)
    rw [List.flatMap_cons, Segment.text, List.length_append, List.length_append, List.length_cons]
    omega

/-- The root and its content make the structure, whatever was passed before. -/
theorem finish_content (hd : d.WellFormed)
    (hrest : r.rest = d.root.name ++ (d.root.inner ++ d.body)) (hsize : r.rest.length ≤ r.size)
    (hbare : r.bare = { size := 0, line := 0, rest := [] }) {fuel : Nat}
    (hfuel : r.rest.length < fuel) :
    (Reading.content fuel r.startTag).finish.map Node.bare = d.outline := by
  obtain ⟨hsize', hopened⟩ := follows_startTag hd.root hrest hsize
  have hlength := congrArg List.length hrest
  simp only [List.length_append] at hlength
  rw [hbare] at hopened
  rw [Reading.bare_finish, outline]
  cases hchange : (Mark.start d.root).change.apply { size := 0, line := 0, rest := [] } with
  | none =>
    rw [hchange] at hopened
    rw [content_of_rest hopened.2, hopened.1]
    rfl
  | some b =>
    rw [hchange] at hopened
    obtain ⟨hb, hbody | hclosed⟩ := hopened
    · rw [bare_content hd.segments hd.after hbody (by rw [hbody, hsize']; omega)
        (by rw [hbody]; omega), hb]
      rfl
    · rw [content_of_stack hclosed, hb, Option.bind_some, Change.run_of_stack]
      rw [← hb, Reading.bare, hclosed, List.map_nil]

theorem isSome_outline (d : Document) : d.outline.isSome = true := by
  obtain ⟨opened, hopened⟩ : ∃ opened, (Mark.start d.root).change.apply
      { size := 0, line := 0, rest := [] } = some opened := ⟨_, rfl⟩
  rw [outline, hopened, Option.bind_some]
  exact isSome_finish (begun_run (begun_opens hopened))

theorem wellFormed_decoded (hd : d.WellFormed) : d.decoded.WellFormed := by
  rw [decoded]
  split
  · exact hd.inBytes
  · exact hd

theorem decodeDeclared_text (hd : d.WellFormed) (hascii : HasAsciiNames d) (hencoded : d.Encoded) :
    decodeDeclared (String.ofList d.text) =
      if isKnownEncoding (declaredEncoding? d.text) then some d.decoded.text else none := by
  rw [decodeDeclared_ofList (pairedOrder?_text hd) hencoded, decoded, apply_ite Document.text,
    text_inBytes hd hascii]

/-- Reading a document is reading the start tag of its root and the content, in the encoding of the
document. -/
theorem exists_read_eq (hd : d.WellFormed) (hascii : HasAsciiNames d) (hencoded : d.Encoded)
    (hknown : isKnownEncoding (declaredEncoding? d.text) = true) :
    ∃ (r : Reading) (fuel : Nat),
      read (String.ofList d.text) = .ok (Reading.content fuel r.startTag).finish ∧
      r.rest = d.decoded.root.name ++ (d.decoded.root.inner ++ d.decoded.body) ∧
      r.rest.length ≤ r.size ∧ r.rest.length < fuel ∧ r.stack = [] ∧ r.root = none := by
  have hempty : ¬ (String.ofList d.text).isEmpty = true := by
    obtain ⟨c, rest, htext, -⟩ := exists_text_eq hd
    simp [htext]
  rw [read, if_neg hempty, decodeDeclared_text hd hascii hencoded, if_pos hknown]
  -- from here on the document is the one that is read
  have he := wellFormed_decoded hd
  generalize d.decoded = e at he
  dsimp only
  rw [dropMark_text he]
  obtain ⟨c, cs, hname, hc, -⟩ := exists_of_isName he.root.name
  have htext : e.text = e.lead ++ (e.prolog.flatMap Segment.text ++
      '<' :: c :: (cs ++ (e.root.inner ++ e.body))) := by
    simp [text, StartTag.text, hname]
  have hlength := congrArg List.length htext
  have hprolog := length_le_flatMap_text e.prolog
  simp only [List.length_append, List.length_cons] at hlength
  obtain ⟨line, hstart⟩ := exists_skipProlog_written he.prolog he.lead hc
    (r := { size := e.text.length, line := 1, rest := e.text }) htext rfl
    (show e.prolog.length < e.text.length + 1 by omega)
  rw [hstart]
  exact ⟨⟨e.text.length, line, c :: (cs ++ (e.root.inner ++ e.body)), [], none⟩, e.text.length + 1,
    rfl, by simp [hname], by simp; omega, by simp; omega, rfl, rfl⟩

/-- The tree of a written document has the structure that the changes of the document make. -/
theorem bare_read (hd : d.WellFormed) (hascii : HasAsciiNames d) (hencoded : d.Encoded) :
    (read (String.ofList d.text)).map (Option.map Node.bare) =
      .ok (if isKnownEncoding (declaredEncoding? d.text) then d.decoded.outline else none) := by
  by_cases hknown : isKnownEncoding (declaredEncoding? d.text) = true
  · obtain ⟨r, fuel, hread, hrest, hsize, hfuel, hstack, hroot⟩ :=
      exists_read_eq hd hascii hencoded hknown
    have hbare : r.bare = { size := 0, line := 0, rest := [] } := by
      rw [Reading.bare, hstack, hroot]
      rfl
    rw [hread, if_pos hknown, ← finish_content (wellFormed_decoded hd) hrest hsize hbare hfuel]
    rfl
  · have hempty : ¬ (String.ofList d.text).isEmpty = true := by
      obtain ⟨c, rest, htext, -⟩ := exists_text_eq hd
      simp [htext]
    rw [read, if_neg hempty, decodeDeclared_text hd hascii hencoded, if_neg hknown, if_neg hknown]
    rfl

/-- A written document in an encoding that can be read has a tree. -/
theorem exists_read (hd : d.WellFormed) (hascii : HasAsciiNames d) (hencoded : d.Encoded)
    (hknown : isKnownEncoding (declaredEncoding? d.text) = true) :
    ∃ n, read (String.ofList d.text) = .ok (some n) ∧ d.decoded.outline = some n.bare := by
  have hread := bare_read hd hascii hencoded
  rw [if_pos hknown] at hread
  obtain ⟨outline, houtline⟩ := Option.isSome_iff_exists.mp (isSome_outline d.decoded)
  rw [houtline] at hread ⊢
  cases hresult : read (String.ofList d.text) with
  | error fault =>
    rw [hresult] at hread
    cases hread
  | ok found =>
    rw [hresult] at hread
    have hbare : found.map Node.bare = some outline := Except.ok.inj hread
    obtain ⟨n, rfl, rfl⟩ := Option.map_eq_some_iff.mp hbare
    exact ⟨n, rfl, rfl⟩

end Document

end DesignAudit.Markup
