import DesignAudit.Proofs.Query.Place
import DesignAudit.Proofs.Text.Longest
import DesignAudit.Proofs.Text.Spelling

/-!
# Names that a search does not pass over

A search goes from left to right without overlap, so that a name which stands at a place of a query is
found unless an earlier match has taken a part of what stands around it. For the first item of a
selection this happens only if the item begins with the word that names the table
(`mem_findFirst_firstPattern_iff`), for a key only behind another key (`mem_findFirst_sortPattern`),
and for a name behind a dot only if it continues another name (`mem_findPairs_dottedPattern`).
-/

namespace DesignAudit.Query

open Text Text.Pattern

/-! ## Characters -/

variable {c : Char} {gs : List (List Char)} {after cs item post rest words : List Char}
  {before : Option Char} {keyword : String}

theorem not_isName_of_isBlank (h : isBlank c = true) : isName c = false := by
  have hall : ∀ n ∈ blankCodes, isName (Char.ofNat n) = false := by decide +kernel
  have hc := hall _ (toNat_mem_blankCodes h)
  rwa [Char.ofNat_toNat] at hc

/-- A character of a selected item: any but blanks, commas and brackets. -/
def isItem (c : Char) : Bool := !isBlank c && !",()".toList.contains c

theorem isItem_iff : isItem c = true ↔ isBlank c = false ∧ c ∉ ",()".toList := by
  rw [isItem, Bool.and_eq_true, Bool.not_eq_true', Bool.not_eq_true', ← List.contains_iff_mem,
    Bool.not_eq_true]

theorem not_isItem_of_isBlank (h : isBlank c = true) : isItem c = false := by
  simp [isItem, h]

theorem isItem_of_isName (h : isName c = true) : isItem c = true := by
  have hsigns : ∀ d ∈ ",()".toList, isName d = false := by decide +kernel
  refine isItem_iff.mpr ⟨?_, fun hc => ?_⟩
  · rw [← Bool.not_eq_true]
    intro hblank
    rw [not_isName_of_isBlank hblank] at h
    cases h
  · rw [hsigns c hc] at h
    cases h

theorem isItem_of_spells {word : String} (h : Spells word cs)
    (hword : ∀ a ∈ word.toList, a ∈ capitalLetters) : ∀ c ∈ cs, isItem c = true := by
  intro c hc
  refine isItem_iff.mpr ⟨h.not_isBlank hword hc, fun hsign => ?_⟩
  exact h.ne_sign hword hc (List.mem_append_left ['.'] hsign) rfl

/-- A letter of a keyword is not among blanks. -/
theorem not_mem_of_isBlanks {a c : Char} (ha : a ∈ capitalLetters) (h : sameLetter a c = true)
    {b : List Char} (hb : IsBlanks b) : c ∉ b := by
  intro hmem
  have hnot := not_isBlank_of_sameLetter ha h
  rw [hb c hmem] at hnot
  cases hnot

theorem forall_mem_head?_append {P : Char → Prop} {xs : List Char} (hne : xs ≠ [])
    (h : ∀ c ∈ xs, P c) (rest : List Char) : ∀ c ∈ (xs ++ rest).head?, P c := by
  obtain ⟨x, xs, rfl⟩ := List.exists_cons_of_ne_nil hne
  intro c hc
  obtain rfl : x = c := Option.some.inj hc
  exact h x List.mem_cons_self

/-! ## The first item of a selection -/

def ItemEnds (e : List Char) : Prop := EndsItem e ∨ ClosesBracket e

/-- A selection up to the end of its first item. -/
def FirstItem (cs item : List Char) : Prop :=
  ∃ k g e, cs = k ++ (g ++ (item ++ e)) ∧ Spells "SELECT" k ∧ IsGap g ∧
    (item ≠ [] ∧ ∀ c ∈ item, isItem c = true) ∧ ItemEnds e

def firstPattern : Pattern := all [word "SELECT", gap, group (oneOrMore isItem), itemEnd]

theorem reads_firstPattern :
    firstPattern.Reads before cs after gs ↔ ∃ item, FirstItem cs item ∧ gs = [item] := by
  simp only [firstPattern, reads_word_then, reads_gap_then,
    reads_group_then fun _ _ _ _ => reads_oneOrMore, reads_then fun _ _ _ _ => reads_itemEnd,
    reads_all_nil]
  constructor
  · rintro ⟨k, _, rfl, hk, g, _, rfl, hg, item, _, _, rfl, rfl, hitem, e, _, rfl, he, rfl, rfl⟩
    exact ⟨item, ⟨k, g, e, by simp, hk, hg, hitem, he⟩, rfl⟩
  · rintro ⟨item, ⟨k, g, e, rfl, hk, hg, hitem, he⟩, rfl⟩
    exact ⟨k, _, rfl, hk, g, _, rfl, hg, item, e, [], rfl, rfl, hitem, e, [],
      (List.append_nil e).symm, he, rfl, rfl⟩

section Ends

variable {e : List Char}

/-- An item ends with blanks and a comma or bracket, or with a gap and the word for the table. -/
theorem ItemEnds.cases (h : ItemEnds e) :
    (∃ b d, e = b ++ [d] ∧ IsBlanks b ∧ d ∈ [',', ')']) ∨
    ∃ g w, e = g ++ w ∧ IsGap g ∧ Spells "FROM" w := by
  rcases h with (⟨b, rfl, hb⟩ | ⟨g, w, rfl, hg, hw⟩) | ⟨b, rfl, hb⟩
  · exact .inl ⟨b, ',', rfl, hb, by decide⟩
  · exact .inr ⟨g, w, rfl, hg, hw⟩
  · exact .inl ⟨b, ')', rfl, hb, by decide⟩

theorem ItemEnds.head_not_isItem (h : ItemEnds e) (rest : List Char) :
    ∀ c ∈ (e ++ rest).head?, isItem c = false := by
  rcases h.cases with ⟨b, d, rfl, hb, hd⟩ | ⟨g, w, rfl, ⟨hne, hg⟩, -⟩
  · have hsigns : ∀ d ∈ [',', ')'], isItem d = false := by decide
    refine forall_mem_head?_append (by simp) ?_ rest
    intro c hc
    rcases List.mem_append.mp hc with hc | hc
    · exact not_isItem_of_isBlank (hb c hc)
    · rw [List.mem_singleton.mp hc]
      exact hsigns d hd
  · rw [List.append_assoc]
    exact forall_mem_head?_append hne (fun c hc => not_isItem_of_isBlank (hg c hc)) _

/-- The letter that a selection begins with is not in what ends an item. -/
theorem ItemEnds.not_mem (h : ItemEnds e) {s : Char} (hs : sameLetter 'S' s = true) : s ∉ e := by
  intro hmem
  rcases h.cases with ⟨b, d, rfl, hb, hd⟩ | ⟨g, w, rfl, ⟨-, hg⟩, hw⟩
  · rcases List.mem_append.mp hmem with hmem | hmem
    · exact not_mem_of_isBlanks (by decide) hs hb hmem
    · have hsigns : ∀ d ∈ [',', ')'], sameLetter 'S' d = false := by decide
      rw [List.mem_singleton.mp hmem, hsigns d hd] at hs
      cases hs
  · rcases List.mem_append.mp hmem with hmem | hmem
    · exact not_mem_of_isBlanks (by decide) hs hg hmem
    · exact hw.not_mem_of_apart (by decide) hs hmem

end Ends

theorem head_not_isBlank (hne : item ≠ []) (hitem : ∀ c ∈ item, isItem c = true)
    (rest : List Char) : ∀ c ∈ (item ++ rest).head?, isBlank c = false :=
  forall_mem_head?_append hne (fun c hc => (isItem_iff.mp (hitem c hc)).1) rest

theorem head_not_isBlank_of_spells {word : String} {w : List Char} (hw : Spells word w)
    (hword : ∀ a ∈ word.toList, a ∈ capitalLetters) (hne : word.toList ≠ []) (rest : List Char) :
    ∀ c ∈ (w ++ rest).head?, isBlank c = false := by
  refine head_not_isBlank ?_ (isItem_of_spells hw hword) rest
  rintro rfl
  exact hne (List.forall₂_nil_right_iff.mp hw)

/-- At most one item is the first one of the selection that begins at a position. -/
theorem FirstItem.unique {cs ds after rest item item' : List Char} (h : FirstItem cs item)
    (h' : FirstItem ds item') (htext : cs ++ after = ds ++ rest) : item = item' := by
  obtain ⟨k, g, e, rfl, hk, hg, ⟨hne, hitem⟩, he⟩ := h
  obtain ⟨k', g', e', rfl, hk', hg', ⟨hne', hitem'⟩, he'⟩ := h'
  simp only [List.append_assoc] at htext
  obtain ⟨rfl, hgaps⟩ := List.append_inj htext (hk.length_eq.symm.trans hk'.length_eq)
  obtain ⟨rfl, hitems⟩ := run_append_inj hg.2 hg'.2 (head_not_isBlank hne hitem _)
    (head_not_isBlank hne' hitem' _) hgaps
  exact (run_append_inj hitem hitem' (he.head_not_isItem _) (he'.head_not_isItem _) hitems).1

/-- A text that begins with the word that names the table. -/
def BeginsWithFrom (cs : List Char) : Prop := ∃ w more, cs = w ++ more ∧ Spells "FROM" w

/-- A first item does not end where another selection goes on, unless the first item of that one
begins with the word that names the table. -/
theorem ItemEnds.not_go_on {e after g item rest : List Char} (he : ItemEnds e) (hg : IsGap g)
    (hne : item ≠ []) (hitem : ∀ c ∈ item, isItem c = true)
    (hrest : ∀ c ∈ rest.head?, isItem c = false) (hfrom : ¬ BeginsWithFrom item) :
    g ++ (item ++ rest) ≠ e ++ after := by
  intro htext
  have hhead := head_not_isBlank hne hitem rest
  rcases he.cases with ⟨b, d, rfl, hb, hd⟩ | ⟨g', w, rfl, hg', hw⟩
  · -- the item would begin with the sign that ends the other one
    have hsigns : ∀ d ∈ [',', ')'], isBlank d = false ∧ isItem d = false := by decide
    rw [List.append_assoc] at htext
    obtain ⟨-, hsame⟩ := run_append_inj hg.2 hb hhead (by simpa using (hsigns d hd).1) htext
    have hitemHead := forall_mem_head?_append hne hitem rest d (by rw [hsame]; rfl)
    rw [(hsigns d hd).2] at hitemHead
    cases hitemHead
  · -- the item would begin where the word does, and no character of the word ends an item
    have hletters := isItem_of_spells hw (by decide)
    rw [List.append_assoc] at htext
    obtain ⟨-, hsame⟩ := run_append_inj hg.2 hg'.2 hhead
      (head_not_isBlank_of_spells hw (by decide) (by decide) after) htext
    rcases List.append_eq_append_iff.mp hsame with ⟨more, rfl, hmore⟩ | ⟨more, rfl, -⟩
    · cases more with
      | nil => exact hfrom ⟨item, [], (List.append_nil item).symm, by rwa [List.append_nil] at hw⟩
      | cons c more =>
        have hc := hrest c (by rw [hmore]; rfl)
        rw [hletters c (by simp)] at hc
        cases hc
    · exact hfrom ⟨w, more, rfl, hw⟩

/-- A selection does not go on into another one whose first item does not begin with the word that
names the table. -/
theorem FirstItem.clear {cs ds after rest item item' y : List Char} (h : FirstItem cs item)
    (h' : FirstItem ds item') (hfrom : ¬ BeginsWithFrom item') (hy : y ≠ [])
    (htext : y ++ (ds ++ rest) = cs ++ after) : cs.length ≤ y.length := by
  obtain ⟨k, g, e, rfl, hk, hg, ⟨hne, hitem⟩, he⟩ := h
  obtain ⟨k', g', e', rfl, hk', hg', ⟨hne', hitem'⟩, he'⟩ := h'
  have hletters : "SELECT".toList = 'S' :: "ELECT".toList := by decide
  have hkeyword := hk'
  rw [Spells, hletters] at hk hkeyword
  obtain ⟨s, l, hs, -, rfl⟩ := List.forall₂_cons_left_iff.mp hkeyword
  obtain ⟨s₀, l₀, -, (hl₀ : Spells "ELECT" l₀), rfl⟩ := List.forall₂_cons_left_iff.mp hk
  obtain ⟨y₀, y, rfl⟩ := List.exists_cons_of_ne_nil hy
  simp only [List.append_assoc, List.cons_append] at htext
  obtain ⟨rfl, htail⟩ := List.cons.inj htext
  -- the letter that the second selection begins with is in no part of the first one but its item,
  -- so that each of these parts lies before it as a whole
  obtain ⟨y₁, rfl, hafterWord⟩ := exists_append_of_not_mem (hl₀.not_mem_of_apart (by decide) hs) htail
  obtain ⟨y₂, rfl, hafterGap⟩ := exists_append_of_not_mem
    (not_mem_of_isBlanks (by decide) hs hg.2) hafterWord.symm
  rcases List.append_eq_append_iff.mp hafterGap with ⟨y₃, rfl, hrest⟩ | ⟨t, rfl, hrest⟩
  · obtain ⟨y₄, rfl, -⟩ := exists_append_of_not_mem (he.not_mem hs) hrest.symm
    simp only [List.length_cons, List.length_append]
    omega
  · -- the second selection begins within the item, so that its first word is the rest of the item
    have hwithin : ∀ c ∈ t, isItem c = true := fun c hc => hitem c (List.mem_append_right y₂ hc)
    have hgapHead := forall_mem_head?_append hg'.1
      (fun c hc => not_isItem_of_isBlank (hg'.2 c hc)) (item' ++ (e' ++ rest))
    obtain ⟨-, hgoes⟩ := run_append_inj (isItem_of_spells hk' (by decide)) hwithin hgapHead
      (he.head_not_isItem after) hrest
    exact absurd hgoes (he.not_go_on hg' hne' hitem' (he'.head_not_isItem rest) hfrom)

/-- **First items.** An item that does not begin with the word that names the table is found as a
first one exactly if it is the first item of a selection. -/
theorem mem_findFirst_firstPattern_iff {query item : List Char} (hfrom : ¬ BeginsWithFrom item) :
    item ∈ firstPattern.findFirst query ↔ ∃ cs, FirstItem cs item ∧ cs <:+: query := by
  constructor
  · intro h
    obtain ⟨pre, cs, post, gs, rfl, hreads⟩ := reads_of_mem_findFirst h
    obtain ⟨item', hitem', hgs⟩ := reads_firstPattern.mp hreads
    obtain ⟨rfl, -⟩ := List.cons.inj hgs
    exact ⟨cs, hitem', pre, post, by simp⟩
  · rintro ⟨cs, hitem, pre, post, rfl⟩
    rw [List.append_assoc]
    refine mem_findFirst_of_clear ?_ (fun y _ hy before m hm => ?_) fun before => ?_
    · obtain ⟨k, g, e, rfl, -, ⟨hne, -⟩, -⟩ := hitem
      simp [hne]
    · obtain ⟨ds, after, gs, htext, hreads, rfl⟩ := matchAt_sound hm
      obtain ⟨item', hitem', -⟩ := reads_firstPattern.mp hreads
      exact hitem'.clear hitem hfrom hy htext
    · -- something is matched here, and its item is the one that stands here
      have hsome : (firstPattern.matchAt before (cs ++ post)).isSome = true :=
        matchAt_isSome_iff.mpr ⟨cs, post, [item], rfl, reads_firstPattern.mpr ⟨item, hitem, rfl⟩⟩
      obtain ⟨m, hm⟩ := Option.isSome_iff_exists.mp hsome
      obtain ⟨ds, rest, gs, htext, hreads, rfl⟩ := matchAt_sound hm
      obtain ⟨item', hitem', rfl⟩ := reads_firstPattern.mp hreads
      exact ⟨_, hm, congrArg some (hitem.unique hitem' htext).symm⟩

/-! ## Keys -/

/-- The pattern for the first key by which rows are ordered or grouped. -/
def keyPattern (keyword : String) : Pattern := all [word keyword, gap, word "BY", gap, name]

def KeyWords (keyword : String) (cs : List Char) : Prop :=
  ∃ k g w g', cs = k ++ (g ++ (w ++ g')) ∧ Spells keyword k ∧ IsGap g ∧ Spells "BY" w ∧ IsGap g'

/-- A text that ends with the words before a key and a part of the key. -/
def EndsInKey (cs : List Char) : Prop :=
  ∃ more w g key, cs = more ++ (w ++ (g ++ key)) ∧ Spells "BY" w ∧ IsGap g ∧
    ∀ c ∈ key, isName c = true

theorem reads_keyPattern :
    (keyPattern keyword).Reads before cs after gs ↔
      ∃ words key, cs = words ++ key ∧ KeyWords keyword words ∧
        (key ≠ [] ∧ ∀ c ∈ key, isName c = true) ∧ gs = [key] := by
  simp only [keyPattern, reads_word_then, reads_gap_then, reads_name_then, reads_all_nil]
  constructor
  · rintro ⟨k, _, rfl, hk, g, _, rfl, hg, w, _, rfl, hw, g', _, rfl, hg', key, _, _, rfl, rfl, hkey,
      rfl, rfl⟩
    exact ⟨_, key, by simp, ⟨k, g, w, g', rfl, hk, hg, hw, hg'⟩, hkey, rfl⟩
  · rintro ⟨_, key, rfl, ⟨k, g, w, g', rfl, hk, hg, hw, hg'⟩, hkey, rfl⟩
    exact ⟨k, _, by simp, hk, g, _, rfl, hg, w, _, rfl, hw, g', _, rfl, hg', key, [], [],
      (List.append_nil key).symm, rfl, hkey, rfl, rfl⟩

/-- A key is taken whole. -/
theorem matchAt_keyPattern {words key post : List Char}
    (hwords : KeyWords keyword words) (hne : key ≠ []) (hkey : ∀ c ∈ key, isName c = true)
    (hpost : ∀ c ∈ post.head?, isName c = false) (before : Option Char) :
    ∃ m, (keyPattern keyword).matchAt before (words ++ (key ++ post)) = some m ∧
      m.groups.head? = some key := by
  obtain ⟨k, g, w, g', rfl, hk, hg, hw, hg'⟩ := hwords
  have hname := head_not_isBlank hne (fun c hc => isItem_of_isName (hkey c hc)) post
  have hby := head_not_isBlank_of_spells hw (by decide) (by decide) (g' ++ (key ++ post))
  refine ⟨⟨(k ++ (g ++ (w ++ g')) ++ (key ++ post)).length - post.length, [key]⟩, ?_, rfl⟩
  simp only [List.append_assoc]
  simp only [matchAt, keyPattern, all, run_seq]
  rw [word, run_letters hk]
  refine run_oneOrMore_longest hg.1 hg.2 hby ?_
  rw [word, run_letters hw]
  refine run_oneOrMore_longest hg'.1 hg'.2 hname ?_
  refine run_group_longest hne hkey hpost ?_
  simp [Capture.text_append]

/-- What is read before a key holds no letter that the keyword begins with, except at its
beginning. -/
theorem not_mem_keyWords (hkeyword : keyword ∈ ["ORDER", "GROUP"]) (h : KeyWords keyword words) :
    ∃ a c more, words = c :: more ∧ sameLetter a c = true ∧
      ∀ {d words'}, sameLetter a d = true → KeyWords keyword words' → d ∉ words'.tail := by
  obtain ⟨first, tail, hletters, hapart, hfirst⟩ : ∃ (first : Char) (tail : String),
      keyword.toList = first :: tail.toList ∧
      (∀ b ∈ tail.toList ++ "BY".toList, LettersApart first b) ∧ first ∈ capitalLetters := by
    rcases List.mem_cons.mp hkeyword with rfl | hkeyword
    · exact ⟨'O', "RDER", by decide, by decide, by decide⟩
    · rw [List.mem_singleton.mp hkeyword]
      exact ⟨'G', "ROUP", by decide, by decide, by decide⟩
  rw [List.forall_mem_append] at hapart
  obtain ⟨k, g, w, g', rfl, hk, hg, hw, hg'⟩ := h
  rw [Spells, hletters] at hk
  obtain ⟨c, k, hc, -, rfl⟩ := List.forall₂_cons_left_iff.mp hk
  refine ⟨first, c, _, rfl, hc, ?_⟩
  rintro d words' hd ⟨k, g, w, g', rfl, hk, hg, hw, hg'⟩
  rw [Spells, hletters] at hk
  obtain ⟨c, k, -, (htail : Spells tail k), rfl⟩ := List.forall₂_cons_left_iff.mp hk
  simp only [List.cons_append, List.tail_cons, List.mem_append, not_or]
  exact ⟨htail.not_mem_of_apart hapart.1 hd, not_mem_of_isBlanks hfirst hd hg.2,
    hw.not_mem_of_apart hapart.2 hd, not_mem_of_isBlanks hfirst hd hg'.2⟩

/-- **Keys.** A name after the words for a key is found as one, unless what stands before the words
ends in another key. -/
theorem mem_findFirst_keyPattern (hkeyword : keyword ∈ ["ORDER", "GROUP"])
    {pre words key post : List Char} (hpre : ¬ EndsInKey pre) (hwords : KeyWords keyword words)
    (hne : key ≠ []) (hkey : ∀ c ∈ key, isName c = true)
    (hpost : ∀ c ∈ post.head?, isName c = false) :
    key ∈ (keyPattern keyword).findFirst (pre ++ (words ++ (key ++ post))) := by
  obtain ⟨a, d, more, rfl, hd, hnot⟩ := not_mem_keyWords hkeyword hwords
  refine mem_findFirst_of_clear (by simp) (fun y hy hyne before m hm => ?_)
    (matchAt_keyPattern hwords hne hkey hpost)
  obtain ⟨cs, after, gs, htext, hreads, rfl⟩ := matchAt_sound hm
  obtain ⟨words', key', rfl, hwords', ⟨-, hkey'⟩, -⟩ := reads_keyPattern.mp hreads
  obtain ⟨-, c', more', rfl, -, -⟩ := not_mem_keyWords hkeyword hwords'
  obtain ⟨y₀, y, rfl⟩ := List.exists_cons_of_ne_nil hyne
  simp only [List.append_assoc, List.cons_append] at htext
  obtain ⟨rfl, htail⟩ := List.cons.inj htext
  -- the words of the other key lie before the keyword as a whole
  obtain ⟨y₁, rfl, hrest⟩ := exists_append_of_not_mem (hnot hd hwords') htail
  rcases List.append_eq_append_iff.mp hrest with ⟨y₂, rfl, -⟩ | ⟨t, rfl, -⟩
  · simp only [List.length_cons, List.length_append, List.tail_cons]
    omega
  · -- the other key would go on into the keyword
    obtain ⟨k, g, w, g', hparts, -, -, hw, hg'⟩ := hwords'
    obtain ⟨x, rfl⟩ := hy
    refine absurd ⟨x ++ (k ++ g), w, g', y₁, ?_, hw, hg', ?_⟩ hpre
    · rw [List.tail_cons, ← List.cons_append, hparts]
      simp
    · exact fun c hc => hkey' c (List.mem_append_left t hc)

/-- A name after the words for a key, with what stands around them. -/
def Key (query pre key post : List Char) : Prop :=
  ∃ keyword ∈ ["ORDER", "GROUP"], ∃ words, query = pre ++ (words ++ (key ++ post)) ∧
    KeyWords keyword words ∧ (key ≠ [] ∧ ∀ c ∈ key, isName c = true) ∧
    ∀ c ∈ post.head?, isName c = false

/-- Whatever is found as a key stands as a key, and no character of a name follows it. -/
theorem key_of_mem_findFirst (hkeyword : keyword ∈ ["ORDER", "GROUP"])
    {query g : List Char} (h : g ∈ (keyPattern keyword).findFirst query) :
    ∃ pre post, Key query pre g post := by
  obtain ⟨pre, rest, m, rfl, hm, hg⟩ := matchAt_of_mem_findFirst h
  obtain ⟨cs, after, gs, rfl, hreads, rfl⟩ := matchAt_sound hm
  obtain ⟨words, key, rfl, hwords, ⟨hne, hkey⟩, rfl⟩ := reads_keyPattern.mp hreads
  -- the whole name is taken, so what follows the part that is read is not of the name
  have hpost : ∀ c ∈ (after.dropWhile isName).head?, isName c = false := by
    intro c hc
    have := List.head?_dropWhile_not isName after
    rw [Option.mem_def.mp hc] at this
    simpa using this
  have hwhole : ∀ c ∈ key ++ after.takeWhile isName, isName c = true :=
    List.forall_mem_append.mpr ⟨hkey, fun c hc => List.mem_takeWhile_imp hc⟩
  obtain ⟨m, hm', hg'⟩ := matchAt_keyPattern hwords (List.append_ne_nil_of_left_ne_nil hne _) hwhole
    hpost (passed none pre)
  rw [List.append_assoc, List.takeWhile_append_dropWhile, ← List.append_assoc, hm] at hm'
  obtain rfl := Option.some.inj hm'
  obtain rfl : key ++ after.takeWhile isName = g := Option.some.inj (hg'.symm.trans hg)
  refine ⟨pre, after.dropWhile isName, keyword, hkeyword, words, ?_, hwords,
    ⟨List.append_ne_nil_of_left_ne_nil hne _, hwhole⟩, hpost⟩
  rw [List.append_assoc key, List.takeWhile_append_dropWhile, List.append_assoc]

/-! ## Names behind a dot -/

theorem takes_of_reads_dottedPattern (h : dottedPattern.Reads before cs after gs) :
    ∀ c ∈ cs, isName c = true ∨ c = '.' := by
  simp only [dottedPattern, reads_text_then, reads_name_then, reads_all_nil] at h
  obtain ⟨n, _, _, rfl, -, ⟨-, hn⟩, d, _, rfl, rfl, m, _, _, rfl, -, ⟨-, hm⟩, rfl, -⟩ := h
  intro c hc
  simp only [List.append_nil, List.mem_append] at hc
  rcases hc with hc | hc | hc
  · exact .inl (hn c hc)
  · exact .inr (List.mem_singleton.mp hc)
  · exact .inl (hm c hc)

/-- **Names behind a dot.** They are found with the name before the dot, unless a name or a dot
stands before this one. -/
theorem mem_findPairs_dottedPattern {pre nick field post : List Char} (hnick : nick ≠ [])
    (hnicks : ∀ c ∈ nick, isName c = true) (hfield : field ≠ [])
    (hfields : ∀ c ∈ field, isName c = true) (hpost : ∀ c ∈ post.head?, isName c = false)
    (hpre : ∀ c ∈ pre.getLast?, isName c = false ∧ c ≠ '.') :
    (nick, field) ∈ dottedPattern.findPairs (pre ++ (nick ++ '.' :: (field ++ post))) := by
  have hdot : ∀ c ∈ (".".toList ++ (field ++ post)).head?, isName c = false := by
    intro c hc
    obtain rfl : '.' = c := Option.some.inj hc
    decide
  have hhere : ∀ before, ∃ n, ⟨n, [nick, field]⟩ ∈
      dottedPattern.allFrom 0 before (nick ++ (".".toList ++ (field ++ post))) := by
    intro before
    have hmatch : ∃ n, dottedPattern.matchAt before (nick ++ (".".toList ++ (field ++ post))) =
        some ⟨n, [nick, field]⟩ := by
      refine ⟨(nick ++ (".".toList ++ (field ++ post))).length - post.length, ?_⟩
      simp only [matchAt, dottedPattern, name, all, run_seq]
      refine run_group_longest hnick hnicks hdot ?_
      rw [text, run_chars]
      refine run_group_longest hfield hfields hpost ?_
      simp [Capture.text_append]
    obtain ⟨n, hmatch⟩ := hmatch
    refine ⟨n, ?_⟩
    obtain ⟨c, cs, rfl⟩ := List.exists_cons_of_ne_nil hnick
    rw [List.cons_append] at hmatch ⊢
    rw [allFrom, hmatch]
    exact List.mem_cons_self
  have hfound : ∃ n, ⟨n, [nick, field]⟩ ∈
      dottedPattern.allFrom 0 none (pre ++ (nick ++ '.' :: (field ++ post))) := by
    rcases List.eq_nil_or_concat pre with rfl | ⟨pre, d, rfl⟩
    · exact hhere none
    · obtain ⟨n, hn⟩ := hhere (some d)
      obtain ⟨hd, hdot⟩ := hpre d (by simp)
      refine ⟨n, ?_⟩
      rw [List.concat_eq_append, List.append_assoc]
      exact mem_allFrom_of_barrier takes_of_reads_dottedPattern (by simp [hd, hdot]) hn
        (Nat.zero_le _) none
  obtain ⟨n, hn⟩ := hfound
  exact List.mem_filterMap.mpr ⟨_, List.mem_map_of_mem hn, rfl⟩

end DesignAudit.Query
