import DesignAudit.Proofs.Text.Cutting
import DesignAudit.Proofs.Text.Pattern

/-!
# Longest runs and the texts between them

Which of the texts that a pattern reads is taken depends on the order in which they are tried. A greedy
repetition takes the longest run of its class as soon as the rest succeeds after it
(`runMany_longest`), and the text determines this run (`run_append_inj`). A search without overlap
passes over no match that is clear of the earlier ones (`mem_allFrom_of_clear`), such as one after a
character that no match can take (`mem_allFrom_of_barrier`), and finds nothing in a text that lacks a
character which every match takes (`allFrom_eq_nil_of_not_mem`).
-/

namespace DesignAudit.Text.Pattern

variable {β : Type} {p : Char → Bool} {c : Char} {captured : List Capture}
  {pre rest taken : List Char} {before : Option Char}

/-- A repetition takes the longest run if the rest succeeds after it. -/
theorem runMany_longest {k : Option Char → List Char → Option β}
    {taken after : List Char} {b : β} (htaken : ∀ c ∈ taken, p c = true)
    (hafter : ∀ c ∈ after.head?, p c = false) (hk : k (passed before taken) after = some b) :
    runMany p k before (taken ++ after) = some b := by
  induction taken generalizing before with
  | nil =>
    cases after with
    | nil => exact hk
    | cons c after =>
      have hc : p c = false := hafter c rfl
      rw [List.nil_append, runMany, if_neg (by simp [hc])]
      exact hk
  | cons c taken ih =>
    rw [List.forall_mem_cons] at htaken
    rw [List.cons_append, runMany, if_pos htaken.1, ih htaken.2 hk]
    rfl

/-- A captured repetition captures the longest run if the rest succeeds after it. -/
theorem run_group_longest {k : Cursor → Option β}
    {taken after : List Char} {b : β} (hne : taken ≠ []) (htaken : ∀ c ∈ taken, p c = true)
    (hafter : ∀ c ∈ after.head?, p c = false)
    (hk : k ⟨passed before taken, after, ⟨taken ++ after, after⟩ :: captured⟩ = some b) :
    (group (oneOrMore p)).run ⟨before, taken ++ after, captured⟩ k = some b := by
  obtain ⟨c, taken, rfl⟩ := List.exists_cons_of_ne_nil hne
  rw [List.forall_mem_cons] at htaken
  simp only [run, oneOrMore, List.cons_append, htaken.1, if_true]
  exact runMany_longest htaken.2 hafter hk

theorem run_seq (a b : Pattern) (cur : Cursor) (k : Cursor → Option β) :
    (seq a b).run cur k = a.run cur fun next => b.run next k :=
  rfl

theorem run_chars (cs : List Char) {k : Cursor → Option β} {after : List Char} :
    (chars cs).run ⟨before, cs ++ after, captured⟩ k = k ⟨passed before cs, after, captured⟩ := by
  induction cs generalizing before with
  | nil => rfl
  | cons c cs ih =>
    cases cs with
    | nil => simp [chars, run]
    | cons d cs =>
      simp only [chars, run, List.cons_append, beq_self_eq_true, if_true]
      exact ih

theorem run_letters {s cs : List Char} (h : List.Forall₂ (fun a b => sameLetter a b = true) s cs)
    {k : Cursor → Option β} {after : List Char} :
    (letters s).run ⟨before, cs ++ after, captured⟩ k = k ⟨passed before cs, after, captured⟩ := by
  induction h generalizing before with
  | nil => rfl
  | @cons a b s cs hab h ih =>
    cases h with
    | nil => simp [letters, run, hab]
    | cons =>
      simp only [letters, run, List.cons_append, hab, if_true]
      exact ih

theorem run_oneOrMore_longest {k : Cursor → Option β} {taken after : List Char} {b : β}
    (hne : taken ≠ []) (htaken : ∀ c ∈ taken, p c = true) (hafter : ∀ c ∈ after.head?, p c = false)
    (hk : k ⟨passed before taken, after, captured⟩ = some b) :
    (oneOrMore p).run ⟨before, taken ++ after, captured⟩ k = some b := by
  obtain ⟨c, taken, rfl⟩ := List.exists_cons_of_ne_nil hne
  rw [List.forall_mem_cons] at htaken
  simp only [run, oneOrMore, List.cons_append, htaken.1, if_true]
  exact runMany_longest htaken.2 hafter hk

/-- A run of a class is determined by the text, if what follows it is not of the class. -/
theorem run_append_inj {xs ys r s : List Char} (hxs : ∀ x ∈ xs, p x = true)
    (hys : ∀ y ∈ ys, p y = true) (hr : ∀ c ∈ r.head?, p c = false)
    (hs : ∀ c ∈ s.head?, p c = false) (h : xs ++ r = ys ++ s) : xs = ys ∧ r = s := by
  have htake : ∀ {xs r : List Char}, (∀ x ∈ xs, p x = true) → (∀ c ∈ r.head?, p c = false) →
      (xs ++ r).takeWhile p = xs := by
    intro xs r hxs hr
    rw [List.takeWhile_append_of_pos hxs]
    cases r with
    | nil => simp
    | cons c r => rw [List.takeWhile_cons_of_neg (by simp [hr c rfl]), List.append_nil]
  obtain rfl : xs = ys := by rw [← htake hxs hr, h, htake hys hs]
  exact ⟨rfl, List.append_cancel_left h⟩

/-- A match is found if no match that begins before it goes on into it, wherever the search has
begun. -/
theorem mem_allFrom_of_clear {p : Pattern} {m : Match}
    (hclear : ∀ y, y <:+ pre → y ≠ [] → ∀ {before m'}, p.matchAt before (y ++ rest) = some m' →
      m'.length ≤ y.length) {skip : Nat} (hskip : skip ≤ pre.length)
    (hm : m ∈ p.allFrom 0 (passed before pre) rest) :
    m ∈ p.allFrom skip before (pre ++ rest) := by
  induction pre generalizing skip before with
  | nil =>
    obtain rfl : skip = 0 := Nat.le_zero.mp hskip
    exact hm
  | cons c pre ih =>
    have hlater := fun y (hy : y <:+ pre) => hclear y (hy.trans (List.suffix_cons c pre))
    cases skip with
    | succ skip =>
      rw [List.cons_append, allFrom]
      exact ih hlater (Nat.le_of_succ_le_succ hskip) hm
    | zero =>
      rw [List.cons_append, allFrom]
      cases hmatch : p.matchAt before (c :: (pre ++ rest)) with
      | none => exact ih hlater (Nat.zero_le _) hm
      | some m' =>
        have hle : m'.length ≤ pre.length + 1 :=
          hclear (c :: pre) List.suffix_rfl (List.cons_ne_nil c pre) hmatch
        exact List.mem_cons_of_mem m' (ih hlater (by omega) hm)

/-- A match that begins after a character which no match can take is found. -/
theorem mem_allFrom_of_barrier {p : Pattern} {takes : Char → Prop}
    (hp : ∀ {before cs after gs}, p.Reads before cs after gs → ∀ c ∈ cs, takes c) {d : Char}
    (hd : ¬ takes d) {m : Match} (hm : m ∈ p.allFrom 0 (some d) rest)
    {skip : Nat} (hskip : skip ≤ pre.length) (before : Option Char) :
    m ∈ p.allFrom skip before (pre ++ d :: rest) := by
  rw [List.append_cons]
  refine mem_allFrom_of_clear (fun y hy hne before' m' hmatch => ?_) ?_ ?_
  · -- a match that begins before the barrier ends before it
    obtain ⟨y, rfl⟩ : ∃ y', y = y' ++ [d] := by
      rcases List.eq_nil_or_concat y with rfl | ⟨y', e, rfl⟩
      · exact absurd rfl hne
      · obtain ⟨x, hx⟩ := hy
        rw [List.concat_eq_append, ← List.append_assoc] at hx
        rw [List.concat_eq_append, List.singleton_inj.mp (List.append_inj' hx rfl).2]
        exact ⟨y', rfl⟩
    obtain ⟨cs, after, gs, htext, hreads, rfl⟩ := matchAt_sound hmatch
    rw [← List.append_cons] at htext
    have hle := ((prefix_append_cons_iff (fun h => hd (hp hreads d h)) y rest).mp
      ⟨after, htext.symm⟩).length_le
    exact hle.trans (by simp)
  · rw [List.length_append]
    exact Nat.le_add_right_of_le hskip
  · rw [passed_append]
    exact hm

/-- What a match captures first is found if the match is clear of the earlier ones. -/
theorem mem_findFirst_of_clear {p : Pattern} {pre rest g : List Char} (hrest : rest ≠ [])
    (hclear : ∀ y, y <:+ pre → y ≠ [] → ∀ {before m'}, p.matchAt before (y ++ rest) = some m' →
      m'.length ≤ y.length)
    (hmatch : ∀ before, ∃ m, p.matchAt before rest = some m ∧ m.groups.head? = some g) :
    g ∈ p.findFirst (pre ++ rest) := by
  obtain ⟨m, hm, hg⟩ := hmatch (passed none pre)
  refine List.mem_filterMap.mpr ⟨m.groups, List.mem_map_of_mem ?_, hg⟩
  refine mem_allFrom_of_clear hclear (Nat.zero_le _) ?_
  obtain ⟨c, rest, rfl⟩ := List.exists_cons_of_ne_nil hrest
  rw [allFrom, hm]
  exact List.mem_cons_self

/-- Nothing is found in a text that belongs to an earlier match. -/
theorem allFrom_of_length_le {p : Pattern} {skip : Nat} {text : List Char}
    (h : text.length ≤ skip) : p.allFrom skip before text = [] := by
  induction text generalizing skip before with
  | nil => rw [allFrom]
  | cons c text ih =>
    obtain ⟨k, rfl⟩ : ∃ k, skip = k + 1 := ⟨skip - 1, by simp at h; omega⟩
    rw [allFrom]
    exact ih (by simpa using h)

/-- A pattern that takes a character in each match finds nothing in a text without it. -/
theorem allFrom_eq_nil_of_not_mem {p : Pattern}
    (hp : ∀ {before cs after gs}, p.Reads before cs after gs → c ∈ cs) {text : List Char}
    (h : c ∉ text) (skip : Nat) (before : Option Char) : p.allFrom skip before text = [] := by
  rw [List.eq_nil_iff_forall_not_mem]
  intro m hm
  obtain ⟨pre, rest, rfl, hmatch⟩ := matchAt_of_mem_allFrom hm
  obtain ⟨cs, after, gs, rfl, hreads, -⟩ := matchAt_sound hmatch
  exact h (List.mem_append_right pre (List.mem_append_left after (hp hreads)))

theorem findPairs_eq_nil_of_not_mem {p : Pattern}
    (hp : ∀ {before cs after gs}, p.Reads before cs after gs → c ∈ cs) {text : List Char}
    (h : c ∉ text) : p.findPairs text = [] := by
  rw [findPairs, findAll, allFrom_eq_nil_of_not_mem hp h]
  rfl

theorem findFirst_eq_nil_of_not_mem {p : Pattern}
    (hp : ∀ {before cs after gs}, p.Reads before cs after gs → c ∈ cs) {text : List Char}
    (h : c ∉ text) : p.findFirst text = [] := by
  rw [findFirst, findAll, allFrom_eq_nil_of_not_mem hp h]
  rfl

/-- A pattern that begins with a text takes each character of the text. -/
theorem mem_of_reads_text_then {s : String} (hc : c ∈ s.toList) {rest : List Pattern}
    {cs after : List Char} {gs : List (List Char)}
    (h : (all (text s :: rest)).Reads before cs after gs) : c ∈ cs := by
  obtain ⟨xs, ys, rfl, rfl, -⟩ := reads_text_then.mp h
  exact List.mem_append_left ys hc

end DesignAudit.Text.Pattern
