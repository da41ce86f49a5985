import DesignAudit.Text.Pattern
import Mathlib.Data.List.Forall2

/-!
# What a pattern reads

`Pattern.Reads` says which texts a pattern can take, and what it captures of them, without saying in
which order they are tried. A text is read in its surroundings, the character before it and the text
after it, since the edges of words and lines depend on these.

Matching is sound and complete for this relation: what a match takes and captures is read by the
pattern (`matchAt_sound`), and there is a match as soon as something can be read
(`matchAt_isSome_iff`). The searches over a whole text follow: `occursIn_iff` says when a pattern
occurs in a text, and `reads_of_mem_findFirst` where a captured text comes from.
-/

namespace DesignAudit.Text

/-- The character just passed after a text. -/
def passed (before : Option Char) (cs : List Char) : Option Char :=
  cs.foldl (fun _ c => some c) before

@[simp]
theorem passed_nil (before : Option Char) : passed before [] = before := rfl

@[simp]
theorem passed_cons (before : Option Char) (c : Char) (cs : List Char) :
    passed before (c :: cs) = passed (some c) cs := rfl

theorem passed_append (before : Option Char) (xs ys : List Char) :
    passed before (xs ++ ys) = passed (passed before xs) ys :=
  List.foldl_append

/-- A capture whose text is what was taken between its ends. -/
theorem Capture.text_append (cs after : List Char) : Capture.text ⟨cs ++ after, after⟩ = cs := by
  simp [Capture.text]

namespace Pattern

/-- A pattern takes a text between the character before it and the text after it, and captures parts
of it, in order. -/
def Reads : Pattern → Option Char → List Char → List Char → List (List Char) → Prop
  | nothing, _, cs, _, gs => cs = [] ∧ gs = []
  | one p, _, cs, _, gs => (∃ c, p c = true ∧ cs = [c]) ∧ gs = []
  | many p, _, cs, _, gs => (∀ c ∈ cs, p c = true) ∧ gs = []
  | fewest p, _, cs, _, gs => (∀ c ∈ cs, p c = true) ∧ gs = []
  | seq a b, before, cs, after, gs =>
    ∃ xs ys gs₁ gs₂, cs = xs ++ ys ∧ gs = gs₁ ++ gs₂ ∧
      a.Reads before xs (ys ++ after) gs₁ ∧ b.Reads (passed before xs) ys after gs₂
  | alt a b, before, cs, after, gs => a.Reads before cs after gs ∨ b.Reads before cs after gs
  | group a, before, cs, after, gs => ∃ inner, a.Reads before cs after inner ∧ gs = inner ++ [cs]
  | wordEdge, before, cs, after, gs => cs = [] ∧ gs = [] ∧ atWordEdge before after = true
  | lineStart, before, cs, _, gs => cs = [] ∧ gs = [] ∧ before.all (· == '\n') = true
  | lineEnd, _, cs, after, gs => cs = [] ∧ gs = [] ∧ after.head?.all (· == '\n') = true

/-! ## Repetitions -/

variable {β : Type} {before : Option Char} {cs after rest : List Char} {gs : List (List Char)}
  {p : Char → Bool} {k : Option Char → List Char → Option β}

theorem runMany_sound {b : β} (h : runMany p k before rest = some b) :
    ∃ cs after, rest = cs ++ after ∧ (∀ c ∈ cs, p c = true) ∧
      k (passed before cs) after = some b := by
  induction rest generalizing before with
  | nil => exact ⟨[], [], rfl, by simp, h⟩
  | cons c rest ih =>
    rw [runMany] at h
    split at h
    · rename_i hc
      rcases Option.or_eq_some_iff.mp h with h | ⟨-, h⟩
      · obtain ⟨cs, after, rfl, hcs, hk⟩ := ih h
        exact ⟨c :: cs, after, rfl, List.forall_mem_cons.mpr ⟨hc, hcs⟩, hk⟩
      · exact ⟨[], c :: rest, rfl, by simp, h⟩
    · exact ⟨[], c :: rest, rfl, by simp, h⟩

theorem runMany_complete (hcs : ∀ c ∈ cs, p c = true)
    (hk : (k (passed before cs) after).isSome = true) :
    (runMany p k before (cs ++ after)).isSome = true := by
  induction cs generalizing before with
  | nil =>
    rw [List.nil_append]
    cases after with
    | nil => exact hk
    | cons c after =>
      rw [runMany]
      split
      · rw [Option.isSome_or, Bool.or_eq_true]
        exact .inr hk
      · exact hk
  | cons c cs ih =>
    rw [List.forall_mem_cons] at hcs
    rw [List.cons_append, runMany, if_pos hcs.1, Option.isSome_or, Bool.or_eq_true]
    exact .inl (ih hcs.2 hk)

theorem runFewest_sound {b : β} (h : runFewest p k before rest = some b) :
    ∃ cs after, rest = cs ++ after ∧ (∀ c ∈ cs, p c = true) ∧
      k (passed before cs) after = some b := by
  induction rest generalizing before with
  | nil => exact ⟨[], [], rfl, by simp, h⟩
  | cons c rest ih =>
    rw [runFewest] at h
    rcases Option.or_eq_some_iff.mp h with h | ⟨-, h⟩
    · exact ⟨[], c :: rest, rfl, by simp, h⟩
    · split at h
      · rename_i hc
        obtain ⟨cs, after, rfl, hcs, hk⟩ := ih h
        exact ⟨c :: cs, after, rfl, List.forall_mem_cons.mpr ⟨hc, hcs⟩, hk⟩
      · cases h

theorem runFewest_complete (hcs : ∀ c ∈ cs, p c = true)
    (hk : (k (passed before cs) after).isSome = true) :
    (runFewest p k before (cs ++ after)).isSome = true := by
  induction cs generalizing before with
  | nil =>
    rw [List.nil_append]
    cases after with
    | nil => exact hk
    | cons c after =>
      rw [runFewest, Option.isSome_or, Bool.or_eq_true]
      exact .inl hk
  | cons c cs ih =>
    rw [List.forall_mem_cons] at hcs
    rw [List.cons_append, runFewest, Option.isSome_or, Bool.or_eq_true, if_pos hcs.1]
    exact .inr (ih hcs.2 hk)

/-! ## Matching -/

variable {g : List Char} {m : Match} {p : Pattern}

/-- Whatever lets the rest succeed is read by the pattern. The captures that are added are those of
the reading, latest first. -/
theorem run_sound {cur : Cursor} {k : Cursor → Option β} {b : β} (h : p.run cur k = some b) :
    ∃ cs after gs caps, cur.rest = cs ++ after ∧ p.Reads cur.before cs after gs ∧
      caps.map Capture.text = gs.reverse ∧
      k ⟨passed cur.before cs, after, caps ++ cur.captured⟩ = some b := by
  induction p generalizing cur k b with
  | nothing => exact ⟨[], cur.rest, [], [], rfl, ⟨rfl, rfl⟩, rfl, h⟩
  | one p =>
    rw [run] at h
    cases hrest : cur.rest with
    | nil => simp [hrest] at h
    | cons c rest =>
      simp only [hrest] at h
      split at h
      · rename_i hc
        exact ⟨[c], rest, [], [], rfl, ⟨⟨c, hc, rfl⟩, rfl⟩, rfl, h⟩
      · cases h
  | many p =>
    obtain ⟨cs, after, hrest, hcs, hk⟩ := runMany_sound h
    exact ⟨cs, after, [], [], hrest, ⟨hcs, rfl⟩, rfl, hk⟩
  | fewest p =>
    obtain ⟨cs, after, hrest, hcs, hk⟩ := runFewest_sound h
    exact ⟨cs, after, [], [], hrest, ⟨hcs, rfl⟩, rfl, hk⟩
  | seq a b iha ihb =>
    obtain ⟨xs, after₁, gs₁, caps₁, hrest, ha, hcaps₁, h⟩ := iha h
    obtain ⟨ys, after, gs₂, caps₂, hrest', hb, hcaps₂, h⟩ := ihb h
    obtain rfl : after₁ = ys ++ after := hrest'
    refine ⟨xs ++ ys, after, gs₁ ++ gs₂, caps₂ ++ caps₁, ?_, ⟨xs, ys, gs₁, gs₂, rfl, rfl, ha, hb⟩,
      ?_, ?_⟩
    · rw [hrest, List.append_assoc]
    · rw [List.map_append, hcaps₁, hcaps₂, List.reverse_append]
    · rw [passed_append, List.append_assoc]
      exact h
  | alt a b iha ihb =>
    rcases Option.or_eq_some_iff.mp h with h | ⟨-, h⟩
    · obtain ⟨cs, after, gs, caps, hrest, ha, hcaps, h⟩ := iha h
      exact ⟨cs, after, gs, caps, hrest, .inl ha, hcaps, h⟩
    · obtain ⟨cs, after, gs, caps, hrest, hb, hcaps, h⟩ := ihb h
      exact ⟨cs, after, gs, caps, hrest, .inr hb, hcaps, h⟩
  | group a ih =>
    obtain ⟨cs, after, gs, caps, hrest, ha, hcaps, h⟩ := ih h
    refine ⟨cs, after, gs ++ [cs], ⟨cs ++ after, after⟩ :: caps, hrest, ⟨gs, ha, rfl⟩, ?_, ?_⟩
    · rw [List.map_cons, Capture.text_append, hcaps, List.reverse_append]
      rfl
    · rw [← hrest]
      exact h
  | wordEdge =>
    rw [run, Option.ite_none_right_eq_some] at h
    exact ⟨[], cur.rest, [], [], rfl, ⟨rfl, rfl, h.1⟩, rfl, h.2⟩
  | lineStart =>
    rw [run, Option.ite_none_right_eq_some] at h
    exact ⟨[], cur.rest, [], [], rfl, ⟨rfl, rfl, h.1⟩, rfl, h.2⟩
  | lineEnd =>
    rw [run, Option.ite_none_right_eq_some] at h
    exact ⟨[], cur.rest, [], [], rfl, ⟨rfl, rfl, h.1⟩, rfl, h.2⟩

/-- Whatever the pattern reads is tried, so that something succeeds if the rest does after it. -/
theorem run_complete (h : p.Reads before cs after gs) (captured : List Capture)
    {k : Cursor → Option β} (hk : ∀ caps : List Capture, caps.map Capture.text = gs.reverse →
      (k ⟨passed before cs, after, caps ++ captured⟩).isSome = true) :
    (p.run ⟨before, cs ++ after, captured⟩ k).isSome = true := by
  induction p generalizing before cs after gs captured k with
  | nothing =>
    obtain ⟨rfl, rfl⟩ := h
    exact hk [] rfl
  | one p =>
    obtain ⟨⟨c, hc, rfl⟩, rfl⟩ := h
    rw [run]
    simp only [List.singleton_append, hc, if_true]
    exact hk [] rfl
  | many p =>
    obtain ⟨hcs, rfl⟩ := h
    exact runMany_complete hcs (hk [] rfl)
  | fewest p =>
    obtain ⟨hcs, rfl⟩ := h
    exact runFewest_complete hcs (hk [] rfl)
  | seq a b iha ihb =>
    obtain ⟨xs, ys, gs₁, gs₂, rfl, rfl, ha, hb⟩ := h
    rw [run, List.append_assoc]
    refine iha ha captured fun caps₁ hcaps₁ => ihb hb _ fun caps₂ hcaps₂ => ?_
    rw [← passed_append, ← List.append_assoc]
    refine hk (caps₂ ++ caps₁) ?_
    rw [List.map_append, hcaps₁, hcaps₂, List.reverse_append]
  | alt a b iha ihb =>
    rw [run, Option.isSome_or, Bool.or_eq_true]
    rcases h with h | h
    · exact .inl (iha h captured hk)
    · exact .inr (ihb h captured hk)
  | group a ih =>
    obtain ⟨inner, ha, rfl⟩ := h
    refine ih ha captured fun caps hcaps => hk (⟨cs ++ after, after⟩ :: caps) ?_
    rw [List.map_cons, Capture.text_append, hcaps, List.reverse_append]
    rfl
  | wordEdge =>
    obtain ⟨rfl, rfl, hedge⟩ := h
    rw [run]
    simp only [List.nil_append, hedge, if_true]
    exact hk [] rfl
  | lineStart =>
    obtain ⟨rfl, rfl, hedge⟩ := h
    rw [run]
    simp only [hedge, if_true]
    exact hk [] rfl
  | lineEnd =>
    obtain ⟨rfl, rfl, hedge⟩ := h
    rw [run]
    simp only [List.nil_append, hedge, if_true]
    exact hk [] rfl

/-- What a match takes and captures is read by the pattern. -/
theorem matchAt_sound (h : p.matchAt before rest = some m) :
    ∃ cs after gs, rest = cs ++ after ∧ p.Reads before cs after gs ∧ m = ⟨cs.length, gs⟩ := by
  obtain ⟨cs, after, gs, caps, hrest, hreads, hcaps, hm⟩ := run_sound h
  refine ⟨cs, after, gs, hrest, hreads, ?_⟩
  obtain rfl : rest = cs ++ after := hrest
  rw [← Option.some.inj hm]
  simp [hcaps]

/-- There is a match exactly if the pattern reads something. -/
theorem matchAt_isSome_iff :
    (p.matchAt before rest).isSome = true ↔
      ∃ cs after gs, rest = cs ++ after ∧ p.Reads before cs after gs := by
  constructor
  · intro h
    obtain ⟨m, hm⟩ := Option.isSome_iff_exists.mp h
    obtain ⟨cs, after, gs, hrest, hreads, -⟩ := matchAt_sound hm
    exact ⟨cs, after, gs, hrest, hreads⟩
  · rintro ⟨cs, after, gs, rfl, hreads⟩
    exact run_complete hreads [] fun _ _ => rfl

/-! ## Searching -/

theorem searchFrom_isSome_iff {text : List Char} :
    (p.searchFrom before text).isSome = true ↔
      ∃ pre rest, text = pre ++ rest ∧ (p.matchAt (passed before pre) rest).isSome = true := by
  induction text generalizing before with
  | nil =>
    rw [searchFrom]
    constructor
    · exact fun h => ⟨[], [], rfl, h⟩
    · rintro ⟨pre, rest, h, hm⟩
      obtain ⟨rfl, rfl⟩ := List.nil_eq_append_iff.mp h
      exact hm
  | cons c text ih =>
    rw [searchFrom]
    cases hmatch : p.matchAt before (c :: text) with
    | some m => exact iff_of_true rfl ⟨[], c :: text, rfl, by rw [passed_nil, hmatch]; rfl⟩
    | none =>
      refine ih.trans ⟨?_, ?_⟩
      · rintro ⟨pre, rest, rfl, hm⟩
        exact ⟨c :: pre, rest, rfl, hm⟩
      · rintro ⟨pre, rest, h, hm⟩
        cases pre with
        | nil =>
          obtain rfl : c :: text = rest := h
          rw [passed_nil, hmatch] at hm
          cases hm
        | cons d pre =>
          obtain ⟨rfl, rfl⟩ := List.cons.inj h
          exact ⟨pre, rest, rfl, hm⟩

/-- A pattern occurs in a text exactly if it reads a part of the text. -/
theorem occursIn_iff {text : List Char} :
    p.occursIn text = true ↔
      ∃ pre cs after gs, text = pre ++ (cs ++ after) ∧ p.Reads (passed none pre) cs after gs := by
  rw [occursIn, search, searchFrom_isSome_iff]
  simp only [matchAt_isSome_iff]
  constructor
  · rintro ⟨pre, rest, rfl, cs, after, gs, rfl, h⟩
    exact ⟨pre, cs, after, gs, rfl, h⟩
  · rintro ⟨pre, cs, after, gs, rfl, h⟩
    exact ⟨pre, cs ++ after, rfl, cs, after, gs, rfl, h⟩

/-- Each match that is found is a match at some position. -/
theorem matchAt_of_mem_allFrom {skip : Nat} {text : List Char}
    (h : m ∈ p.allFrom skip before text) :
    ∃ pre rest, text = pre ++ rest ∧ p.matchAt (passed before pre) rest = some m := by
  induction text generalizing skip before with
  | nil => simp [allFrom] at h
  | cons c text ih =>
    have hlater : ∀ {n}, m ∈ p.allFrom n (some c) text →
        ∃ pre rest, c :: text = pre ++ rest ∧ p.matchAt (passed before pre) rest = some m := by
      intro n hn
      obtain ⟨pre, rest, rfl, hm⟩ := ih hn
      exact ⟨c :: pre, rest, rfl, hm⟩
    cases skip with
    | succ n => exact hlater h
    | zero =>
      rw [allFrom] at h
      cases hmatch : p.matchAt before (c :: text) with
      | none =>
        simp only [hmatch] at h
        exact hlater h
      | some m' =>
        simp only [hmatch] at h
        rcases List.mem_cons.mp h with rfl | h
        · exact ⟨[], c :: text, rfl, hmatch⟩
        · exact hlater h

/-- What is captured first belongs to a match at some position. -/
theorem matchAt_of_mem_findFirst {text g : List Char} (h : g ∈ p.findFirst text) :
    ∃ pre rest m, text = pre ++ rest ∧ p.matchAt (passed none pre) rest = some m ∧
      m.groups.head? = some g := by
  obtain ⟨groups, hgroups, hg⟩ := List.mem_filterMap.mp h
  obtain ⟨m, hm, rfl⟩ := List.mem_map.mp hgroups
  obtain ⟨pre, rest, rfl, hmatch⟩ := matchAt_of_mem_allFrom hm
  exact ⟨pre, rest, m, rfl, hmatch, hg⟩

/-- What is captured first is captured from a part of the text that the pattern reads. -/
theorem reads_of_mem_findFirst {text g : List Char} (h : g ∈ p.findFirst text) :
    ∃ pre cs after gs, text = pre ++ (cs ++ after) ∧
      p.Reads (passed none pre) cs after (g :: gs) := by
  obtain ⟨pre, rest, m, rfl, hmatch, hg⟩ := matchAt_of_mem_findFirst h
  obtain ⟨cs, after, gs, rfl, hreads, rfl⟩ := matchAt_sound hmatch
  obtain ⟨gs', rfl⟩ := List.head?_eq_some_iff.mp hg
  exact ⟨pre, cs, after, gs', rfl, hreads⟩

theorem reads_of_mem_findPairs {text a b : List Char} (h : (a, b) ∈ p.findPairs text) :
    ∃ pre cs after gs, text = pre ++ (cs ++ after) ∧
      p.Reads (passed none pre) cs after (a :: b :: gs) := by
  obtain ⟨groups, hgroups, hpair⟩ := List.mem_filterMap.mp h
  obtain ⟨m, hm, rfl⟩ := List.mem_map.mp hgroups
  obtain ⟨pre, rest, rfl, hmatch⟩ := matchAt_of_mem_allFrom hm
  obtain ⟨cs, after, gs, rfl, hreads, rfl⟩ := matchAt_sound hmatch
  dsimp only at hpair
  split at hpair
  · rename_i a' b' gs'
    obtain ⟨rfl, rfl⟩ := Prod.mk.inj (Option.some.inj hpair)
    exact ⟨pre, cs, after, gs', rfl, hreads⟩
  · cases hpair

/-- The parts of a pattern whose text is captured. -/
def bodies : Pattern → List Pattern
  | seq a b => a.bodies ++ b.bodies
  | alt a b => a.bodies ++ b.bodies
  | group a => a.bodies ++ [a]
  | _ => []

/-- Each captured text is read by a part of the pattern that is captured. -/
theorem exists_mem_bodies_of_reads (h : p.Reads before cs after gs) (hg : g ∈ gs) :
    ∃ b ∈ p.bodies, ∃ before' after' gs', b.Reads before' g after' gs' := by
  induction p generalizing before cs after gs with
  | nothing | one | many | fewest =>
    obtain ⟨-, rfl⟩ := h
    cases hg
  | wordEdge | lineStart | lineEnd =>
    obtain ⟨-, rfl, -⟩ := h
    cases hg
  | seq a b iha ihb =>
    obtain ⟨xs, ys, gs₁, gs₂, rfl, rfl, ha, hb⟩ := h
    rcases List.mem_append.mp hg with hg | hg
    · obtain ⟨d, hd, hreads⟩ := iha ha hg
      exact ⟨d, List.mem_append_left _ hd, hreads⟩
    · obtain ⟨d, hd, hreads⟩ := ihb hb hg
      exact ⟨d, List.mem_append_right _ hd, hreads⟩
  | alt a b iha ihb =>
    rcases h with ha | hb
    · obtain ⟨d, hd, hreads⟩ := iha ha hg
      exact ⟨d, List.mem_append_left _ hd, hreads⟩
    · obtain ⟨d, hd, hreads⟩ := ihb hb hg
      exact ⟨d, List.mem_append_right _ hd, hreads⟩
  | group a ih =>
    obtain ⟨inner, ha, rfl⟩ := h
    rcases List.mem_append.mp hg with hg | hg
    · obtain ⟨d, hd, hreads⟩ := ih ha hg
      exact ⟨d, List.mem_append_left _ hd, hreads⟩
    · rw [List.mem_singleton.mp hg]
      exact ⟨a, List.mem_append_right _ List.mem_cons_self, before, after, inner, ha⟩

/-- The first match is among all matches, for a pattern that takes something. -/
theorem mem_allFrom_of_searchFrom (hempty : ∀ before, p.matchAt before [] = none) {text : List Char}
    (h : p.searchFrom before text = some m) : m ∈ p.allFrom 0 before text := by
  induction text generalizing before with
  | nil =>
    rw [searchFrom, hempty] at h
    cases h
  | cons c text ih =>
    rw [searchFrom] at h
    rw [allFrom]
    cases hmatch : p.matchAt before (c :: text) with
    | none =>
      simp only [hmatch] at h
      exact ih h
    | some m' =>
      simp only [hmatch, Option.some.injEq] at h
      exact h ▸ List.mem_cons_self

/-! ## Patterns that are built from others -/

/-- A text that is the given one, letters compared without regard to case. -/
def Spells (s : String) (cs : List Char) : Prop :=
  List.Forall₂ (fun a b => sameLetter a b = true) s.toList cs

theorem sameLetter_self (c : Char) : sameLetter c c = true := by
  simp [sameLetter]

theorem spells_toList (s : String) : Spells s s.toList :=
  List.forall₂_same.mpr fun c _ => sameLetter_self c

theorem reads_all_nil :
    (all []).Reads before cs after gs ↔ cs = [] ∧ gs = [] :=
  .rfl

theorem reads_all_cons {a : Pattern} {rest : List Pattern} :
    (all (a :: rest)).Reads before cs after gs ↔ (seq a (all rest)).Reads before cs after gs := by
  cases rest with
  | cons b rest => rfl
  | nil =>
    constructor
    · intro h
      refine ⟨cs, [], gs, [], by simp, by simp, ?_, rfl, rfl⟩
      exact h
    · rintro ⟨xs, ys, gs₁, gs₂, rfl, rfl, h, rfl, rfl⟩
      rw [List.append_nil, List.append_nil]
      exact h

/-- Single characters one after the other. -/
theorem reads_all_one {ps : List (Char → Bool)} :
    (all (ps.map one)).Reads before cs after gs ↔
      List.Forall₂ (fun p c => p c = true) ps cs ∧ gs = [] := by
  induction ps generalizing before cs gs with
  | nil =>
    rw [List.map_nil, reads_all_nil, List.forall₂_nil_left_iff]
  | cons p ps ih =>
    rw [List.map_cons, reads_all_cons, Reads, List.forall₂_cons_left_iff]
    simp only [ih]
    constructor
    · rintro ⟨xs, ys, gs₁, gs₂, rfl, rfl, ⟨⟨c, hc, rfl⟩, rfl⟩, hys, rfl⟩
      exact ⟨⟨c, ys, hc, hys, rfl⟩, rfl⟩
    · rintro ⟨⟨c, ys, hc, hys, rfl⟩, rfl⟩
      exact ⟨[c], ys, [], [], rfl, rfl, ⟨⟨c, hc, rfl⟩, rfl⟩, hys, rfl⟩

theorem chars_eq_all (s : List Char) : chars s = all (s.map fun c => one (· == c)) := by
  induction s with
  | nil => rfl
  | cons c s ih =>
    cases s with
    | nil => rfl
    | cons d s => exact congrArg (seq _) ih

theorem letters_eq_all (s : List Char) : letters s = all (s.map fun c => one (sameLetter c)) := by
  induction s with
  | nil => rfl
  | cons c s ih =>
    cases s with
    | nil => rfl
    | cons d s => exact congrArg (seq _) ih

theorem reads_text {s : String} : (text s).Reads before cs after gs ↔ cs = s.toList ∧ gs = [] := by
  rw [text, chars_eq_all, show (fun c => one (· == c)) = one ∘ fun c d => d == c from rfl,
    ← List.map_map, reads_all_one, List.forall₂_map_left_iff]
  have heq : (fun c d : Char => (d == c) = true) = (· = ·) := by
    funext c d
    rw [beq_iff_eq, @eq_comm _ c d]
  rw [heq, List.forall₂_eq_eq_eq, @eq_comm _ cs]

theorem reads_word {s : String} : (word s).Reads before cs after gs ↔ Spells s cs ∧ gs = [] := by
  rw [word, letters_eq_all, show (fun c => one (sameLetter c)) = one ∘ sameLetter from rfl,
    ← List.map_map, reads_all_one, List.forall₂_map_left_iff, Spells]

theorem reads_oneOrMore {p : Char → Bool} :
    (oneOrMore p).Reads before cs after gs ↔ (cs ≠ [] ∧ ∀ c ∈ cs, p c = true) ∧ gs = [] := by
  constructor
  · rintro ⟨xs, ys, gs₁, gs₂, rfl, rfl, ⟨⟨c, hc, rfl⟩, rfl⟩, hys, rfl⟩
    exact ⟨⟨List.cons_ne_nil c ys, List.forall_mem_cons.mpr ⟨hc, hys⟩⟩, rfl⟩
  · rintro ⟨⟨hne, hcs⟩, rfl⟩
    obtain ⟨c, cs, rfl⟩ := List.exists_cons_of_ne_nil hne
    rw [List.forall_mem_cons] at hcs
    exact ⟨[c], cs, [], [], rfl, rfl, ⟨⟨c, hcs.1, rfl⟩, rfl⟩, hcs.2, rfl⟩

/-! A pattern that captures nothing and looks at nothing around it, followed by others: what it
takes is split off. -/

section Followed

variable {rest : List Pattern}

theorem reads_then {a : Pattern} {R : List Char → Prop}
    (ha : ∀ before cs after gs, a.Reads before cs after gs ↔ R cs ∧ gs = []) :
    (all (a :: rest)).Reads before cs after gs ↔
      ∃ xs ys, cs = xs ++ ys ∧ R xs ∧ (all rest).Reads (passed before xs) ys after gs := by
  rw [reads_all_cons, Reads]
  simp only [ha]
  constructor
  · rintro ⟨xs, ys, gs₁, gs₂, rfl, rfl, ⟨hxs, rfl⟩, hys⟩
    exact ⟨xs, ys, rfl, hxs, hys⟩
  · rintro ⟨xs, ys, rfl, hxs, hys⟩
    exact ⟨xs, ys, [], gs, rfl, rfl, ⟨hxs, rfl⟩, hys⟩

theorem reads_group_then {a : Pattern} {R : List Char → Prop}
    (ha : ∀ before cs after gs, a.Reads before cs after gs ↔ R cs ∧ gs = []) :
    (all (group a :: rest)).Reads before cs after gs ↔
      ∃ xs ys gs', cs = xs ++ ys ∧ gs = xs :: gs' ∧ R xs ∧
        (all rest).Reads (passed before xs) ys after gs' := by
  rw [reads_all_cons, Reads]
  simp only [Reads, ha]
  constructor
  · rintro ⟨xs, ys, gs₁, gs₂, rfl, rfl, ⟨inner, ⟨hxs, rfl⟩, rfl⟩, hys⟩
    exact ⟨xs, ys, gs₂, rfl, rfl, hxs, hys⟩
  · rintro ⟨xs, ys, gs', rfl, rfl, hxs, hys⟩
    exact ⟨xs, ys, [xs], gs', rfl, rfl, ⟨[], ⟨hxs, rfl⟩, rfl⟩, hys⟩

theorem reads_word_then {s : String} :
    (all (word s :: rest)).Reads before cs after gs ↔
      ∃ xs ys, cs = xs ++ ys ∧ Spells s xs ∧ (all rest).Reads (passed before xs) ys after gs :=
  reads_then fun _ _ _ _ => reads_word

theorem reads_text_then {s : String} :
    (all (text s :: rest)).Reads before cs after gs ↔
      ∃ xs ys, cs = xs ++ ys ∧ xs = s.toList ∧
        (all rest).Reads (passed before xs) ys after gs :=
  reads_then fun _ _ _ _ => reads_text

theorem reads_one_then {p : Char → Bool} :
    (all (one p :: rest)).Reads before cs after gs ↔
      ∃ xs ys, cs = xs ++ ys ∧ (∃ c, p c = true ∧ xs = [c]) ∧
        (all rest).Reads (passed before xs) ys after gs :=
  reads_then fun _ _ _ _ => .rfl

theorem reads_many_then {p : Char → Bool} :
    (all (many p :: rest)).Reads before cs after gs ↔
      ∃ xs ys, cs = xs ++ ys ∧ (∀ c ∈ xs, p c = true) ∧
        (all rest).Reads (passed before xs) ys after gs :=
  reads_then fun _ _ _ _ => .rfl

theorem reads_oneOrMore_then {p : Char → Bool} :
    (all (oneOrMore p :: rest)).Reads before cs after gs ↔
      ∃ xs ys, cs = xs ++ ys ∧ (xs ≠ [] ∧ ∀ c ∈ xs, p c = true) ∧
        (all rest).Reads (passed before xs) ys after gs :=
  reads_then fun _ _ _ _ => reads_oneOrMore

theorem reads_wordEdge_then :
    (all (wordEdge :: rest)).Reads before cs after gs ↔
      atWordEdge before (cs ++ after) = true ∧ (all rest).Reads before cs after gs := by
  rw [reads_all_cons, Reads]
  constructor
  · rintro ⟨xs, ys, gs₁, gs₂, rfl, rfl, ⟨rfl, rfl, hedge⟩, hys⟩
    exact ⟨hedge, hys⟩
  · rintro ⟨hedge, hcs⟩
    exact ⟨[], cs, [], gs, rfl, rfl, ⟨rfl, rfl, hedge⟩, hcs⟩

end Followed

/-! ## Edges of words -/

theorem any_passed_congr {before before' : Option Char} {p : Char → Bool}
    (h : before.any p = before'.any p) (cs : List Char) :
    (passed before cs).any p = (passed before' cs).any p := by
  cases cs with
  | nil => exact h
  | cons c cs => rfl

theorem any_passed_eq_false {p : Char → Bool} (h : before.any p = false)
    {cs : List Char} (hcs : ∀ c ∈ cs, p c = false) : (passed before cs).any p = false := by
  induction cs generalizing before with
  | nil => exact h
  | cons c cs ih =>
    rw [List.forall_mem_cons] at hcs
    have hc : (some c).any p = false := hcs.1
    exact ih hc hcs.2

theorem any_head?_append {p : Char → Bool} {tail : List Char} (htail : ∀ c ∈ tail, p c = false)
    (cs : List Char) : (cs ++ tail).head?.any p = cs.head?.any p := by
  cases cs with
  | cons c cs => rfl
  | nil =>
    cases tail with
    | nil => rfl
    | cons c tail => exact htail c List.mem_cons_self

theorem atWordEdge_append {tail : List Char} (htail : ∀ c ∈ tail, isWord c = false)
    (before : Option Char) (cs : List Char) :
    atWordEdge before (cs ++ tail) = atWordEdge before cs := by
  rw [atWordEdge, atWordEdge, any_head?_append htail]

theorem atWordEdge_passed_append {lead : List Char} (hlead : ∀ c ∈ lead, isWord c = false)
    (cs rest : List Char) :
    atWordEdge (passed none (lead ++ cs)) rest = atWordEdge (passed none cs) rest := by
  have hnone : (passed none lead).any isWord = (none : Option Char).any isWord :=
    any_passed_eq_false rfl hlead
  rw [atWordEdge, atWordEdge, passed_append, any_passed_congr hnone]

/-- Among characters of no word there is no edge. -/
theorem atWordEdge_eq_false (hbefore : before.any isWord = false)
    (hrest : rest.head?.any isWord = false) : atWordEdge before rest = false := by
  rw [atWordEdge, hbefore, hrest]
  rfl

end Pattern

end DesignAudit.Text
