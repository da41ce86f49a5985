import DesignAudit.Data.Reading
import DesignAudit.Proofs.Data.Escape
import DesignAudit.Proofs.Data.Numeral
import DesignAudit.Proofs.Register

/-!
# Values that are written and read back

`read_written` says that every value can be read from what is written for it, and as what: real
numbers are those that their numerals denote, and of several members with one name the last one
counts.

The reader goes from token to token. `Takes p cs q rest` says that the characters `cs` bring it from
`p` to `q` when `rest` follows, and such passages can be joined (`Takes.trans`). That a value is
taken in follows by induction over values (`isTaken`).
-/

namespace DesignAudit.Data

open Number Text

/-! ## Values -/

mutual

def Value.readBack : Value → Value
  | .real b => .real (reread b)
  | .list xs => .list (readBackItems xs)
  | .record ms => .record (Register.ofList (readBackMembers ms)).entries
  | v => v

def readBackItems : List Value → List Value
  | [] => []
  | v :: rest => v.readBack :: readBackItems rest

def readBackMembers : List (String × Value) → List (String × Value)
  | [] => []
  | (name, v) :: rest => (name, v.readBack) :: readBackMembers rest

end

/-- Induction over values: what holds of the items of a list holds of the list, and likewise for
records. -/
theorem Value.induction {P : Value → Prop} (plain : ∀ v, (∀ xs, v ≠ .list xs) →
    (∀ ms, v ≠ .record ms) → P v) (list : ∀ xs, (∀ x ∈ xs, P x) → P (.list xs))
    (record : ∀ ms, (∀ m ∈ ms, P m.2) → P (.record ms)) (v : Value) : P v :=
  @Value.rec P (fun xs => ∀ x ∈ xs, P x) (fun ms => ∀ m ∈ ms, P m.2) (fun m => P m.2)
    (plain _ nofun nofun) (fun _ => plain _ nofun nofun) (fun _ => plain _ nofun nofun)
    (fun _ => plain _ nofun nofun) (fun _ => plain _ nofun nofun) list record
    nofun (fun _ _ hx hxs => List.forall_mem_cons.mpr ⟨hx, hxs⟩)
    nofun (fun _ _ hm hms => List.forall_mem_cons.mpr ⟨hm, hms⟩) (fun _ _ hv => hv) v

theorem writtenItems_eq (xs : List Value) : writtenItems xs = xs.map Value.written := by
  induction xs with
  | nil => rfl
  | cons x xs ih => rw [writtenItems, ih, List.map_cons]

theorem readBackItems_eq (xs : List Value) : readBackItems xs = xs.map Value.readBack := by
  induction xs with
  | nil => rfl
  | cons x xs ih => rw [readBackItems, ih, List.map_cons]

def writtenMember (m : String × Value) : String := writtenText m.1 ++ ": " ++ m.2.written

theorem writtenMembers_eq (ms : List (String × Value)) :
    writtenMembers ms = ms.map writtenMember := by
  induction ms with
  | nil => rfl
  | cons m ms ih => rw [writtenMembers, ih, List.map_cons, writtenMember]

theorem readBackMembers_eq (ms : List (String × Value)) :
    readBackMembers ms = ms.map fun m => (m.1, m.2.readBack) := by
  induction ms with
  | nil => rfl
  | cons m ms ih => rw [readBackMembers, ih, List.map_cons]

theorem toList_join_cons (sep s : String) (pieces : List String) :
    (join sep (s :: pieces)).toList =
      s.toList ++ pieces.flatMap fun piece => sep.toList ++ piece.toList := by
  induction pieces generalizing s with
  | nil => simp [join]
  | cons t pieces ih =>
    rw [join, String.toList_append, String.toList_append, ih, List.flatMap_cons]
    · simp only [List.append_assoc]
    · nofun

/-! ## Tokens -/

theorem toList_tokensFrom (i : Nat) (done : Array (Nat × Token)) (cs : List Char) :
    (tokensFrom i done cs).toList = done.toList ++ (tokensFrom i #[] cs).toList := by
  induction hn : cs.length using Nat.strongRecOn generalizing i done cs with
  | ind n ih =>
    cases cs with
    | nil => simp [tokensFrom]
    | cons c rest =>
      rw [List.length_cons] at hn
      rw [tokensFrom, tokensFrom]
      split
      · exact ih rest.length (by omega) _ _ _ rfl
      · have hlt : (rest.drop ((tokenAt i (c :: rest)).2 - 1)).length < n := by
          rw [List.length_drop]
          omega
        dsimp only
        rw [ih _ hlt _ _ _ rfl, ih _ hlt _ (#[].push _) _ rfl, Array.toList_push, List.append_assoc]
        rfl

def readOn (p : Progress) (i : Nat) (cs : List Char) : Except ReadFault Progress :=
  (tokensFrom i #[] cs).toList.foldlM Progress.step p

theorem readOn_nil (p : Progress) (i : Nat) : readOn p i [] = .ok p := by
  rw [readOn, tokensFrom]
  rfl

variable {awaited : Awaited} {c : Char} {cs ds rest : List Char} {p q : Progress} {t : Token}
  {v : Value}

theorem readOn_gap (hc : isGap c = true) (p : Progress) (i : Nat) (rest : List Char) :
    readOn p i (c :: rest) = readOn p (i + 1) rest := by
  rw [readOn, tokensFrom, if_pos hc, readOn]

/-- One token that takes up `cs` is read. -/
theorem readOn_token {i : Nat} (hc : isGap c = false)
    (ht : tokenAt i (c :: cs ++ rest) = (t, (c :: cs).length)) (p : Progress) :
    readOn p i (c :: cs ++ rest) =
      (p.step (i, t)).bind fun q => readOn q (i + (c :: cs).length) rest := by
  have hplace : i + max 1 (c :: cs).length = i + (c :: cs).length := by
    rw [List.length_cons]
    omega
  rw [List.cons_append] at ht ⊢
  rw [readOn, tokensFrom, if_neg (by rw [hc]; decide), ht]
  dsimp only
  rw [toList_tokensFrom, hplace, List.length_cons, Nat.add_sub_cancel, List.drop_left]
  rfl

/-- The characters `cs` bring the reader from `p` to `q` when `rest` follows. -/
def Takes (p : Progress) (cs : List Char) (q : Progress) (rest : List Char) : Prop :=
  ∀ i, readOn p i (cs ++ rest) = readOn q (i + cs.length) rest

theorem Takes.trans {p q r : Progress} (h : Takes p cs q (ds ++ rest))
    (h' : Takes q ds r rest) : Takes p (cs ++ ds) r rest := by
  intro i
  rw [List.append_assoc, h, h', List.length_append, Nat.add_assoc]

theorem takes_gap (p : Progress) (rest : List Char) : Takes p [' '] p rest :=
  fun i => readOn_gap rfl p i rest

/-- A token brings the reader one step on. -/
theorem takes_token (hc : isGap c = false)
    (ht : ∀ i, tokenAt i (c :: cs ++ rest) = (t, (c :: cs).length))
    (hstep : ∀ i, p.step (i, t) = .ok q) : Takes p (c :: cs) q rest := by
  intro i
  rw [readOn_token hc (ht i), hstep]
  rfl

theorem tokenAt_text (i : Nat) (s : String) (rest : List Char) :
    tokenAt i ((writtenText s).toList ++ rest) =
      (.text (.ok s), (writtenText s).toList.length) := by
  rw [writtenText, String.toList_ofList, List.cons_append, List.cons_append, List.append_assoc,
    List.singleton_append, tokenAt, readText_written, List.reverse_nil, List.nil_append,
    joinSurrogates_flatMap_units, String.ofList_toList]
  simp only [List.length_cons, List.length_append, List.length_nil, Prod.mk.injEq, true_and]
  omega

/-- A numeral begins neither like a mark nor like a word. -/
theorem tokenAt_numeral (i : Nat) {negative : Bool} {d : Char} {n : Nat}
    (hd : d.isDigit = true) (h : readNumber? (signPart negative ++ d :: ds) = some (v, n)) :
    tokenAt i (signPart negative ++ d :: ds) = (.plain v, n) := by
  have hother : ∀ {c : Char}, c.isDigit = false → c ≠ d := by
    rintro c hc rfl
    exact absurd hd (by rw [hc]; decide)
  have hplain : readPlain? (signPart negative ++ d :: ds) = some (v, n) := by
    rw [readPlain?, List.find?_eq_none.mpr]
    · exact h
    · cases negative <;> simp [wordValues, signPart, hother]
  have hmark : ∀ {c : Char}, c.isDigit = false → c ≠ '-' → ∀ rest,
      signPart negative ++ d :: ds = c :: rest → False := by
    intro c hc hsign rest h
    cases negative with
    | false => exact hother hc (List.cons.inj h).1.symm
    | true => exact hsign (List.cons.inj h).1.symm
  rw [tokenAt, hplain]
  all_goals exact hmark (by decide) (by decide)

/-! ## Values -/

/-- What is looked for next is a value. -/
def Awaited.IsValue (a : Awaited) : Prop := a = .value ∨ a = .itemOrEnd

/-- The reader takes in what is written for a value, wherever it looks for one. -/
def IsTaken (v : Value) : Prop :=
  ∀ pending {awaited : Awaited}, awaited.IsValue → ∀ {rest}, Ends rest →
    Takes (.inside pending awaited) v.written.toList (.enter v.readBack pending) rest

theorem step_value {pending : List Pending} (h : awaited.IsValue) (ht : t ≠ .closeList) (i : Nat) :
    (Progress.inside pending awaited).step (i, t) = Progress.value pending i t := by
  obtain rfl | rfl := h
  · cases pending with
    | nil => rfl
    | cons p outer => cases p <;> rfl
  · cases pending with
    | nil => rfl
    | cons p outer => cases p <;> cases t <;> first | rfl | exact absurd rfl ht

theorem takes_plain (hc : isGap c = false)
    (ht : ∀ i, tokenAt i (c :: cs ++ rest) = (.plain v, (c :: cs).length)) (pending : List Pending)
    (h : awaited.IsValue) : Takes (.inside pending awaited) (c :: cs) (.enter v pending) rest :=
  takes_token hc ht (step_value h nofun)

theorem takes_word {w : String} (h : (w, v) ∈ wordValues) (pending : List Pending)
    (ha : awaited.IsValue) (rest : List Char) :
    Takes (.inside pending awaited) w.toList (.enter v pending) rest := by
  simp only [wordValues, List.mem_cons, Prod.mk.injEq, List.not_mem_nil, or_false] at h
  rcases h with ⟨rfl, rfl⟩ | ⟨rfl, rfl⟩ | ⟨rfl, rfl⟩ | ⟨rfl, rfl⟩ | ⟨rfl, rfl⟩ | ⟨rfl, rfl⟩
  all_goals exact takes_plain (by decide) (fun i => rfl) pending ha

theorem takes_numeral {negative : Bool} {d : Char} (hd : d.isDigit = true)
    (h : readNumber? (signPart negative ++ d :: ds ++ rest) =
      some (v, (signPart negative ++ d :: ds).length))
    (pending : List Pending) (ha : awaited.IsValue) :
    Takes (.inside pending awaited) (signPart negative ++ d :: ds) (.enter v pending) rest := by
  have hgap : isGap d = false :=
    forall_of_isDigit (p := fun c => isGap c = false) (by decide) hd
  have htoken : ∀ i, tokenAt i (signPart negative ++ d :: ds ++ rest) =
      (.plain v, (signPart negative ++ d :: ds).length) := by
    rw [List.append_assoc, List.cons_append] at h ⊢
    exact fun i => tokenAt_numeral i hd h
  cases negative with
  | false => exact takes_plain hgap htoken pending ha
  | true => exact takes_plain (by decide) htoken pending ha

theorem isTaken_whole (n : Int) : IsTaken (.whole n) := by
  intro pending awaited ha rest hrest
  obtain ⟨d, ds, hds⟩ := List.exists_cons_of_ne_nil (isDigits_digitsOf n.natAbs).ne_nil
  have hd := (isDigits_digitsOf n.natAbs).digit d (hds ▸ List.mem_cons_self)
  have hread := readNumber?_whole n hrest
  rw [toList_toString_int, hds] at hread
  rw [Value.written, toList_toString_int, hds]
  exact takes_numeral hd hread pending ha

theorem isTaken_finite (negative : Bool) (m : Nat) (e : Int) :
    IsTaken (.real (.finite negative m e)) := by
  intro pending awaited ha rest hrest
  obtain ⟨cs, ⟨whole, fraction, exponent, hnumeral, -, rfl⟩, hcs⟩ :=
    exists_numeral_shown negative m e
  obtain ⟨d, ds, rfl⟩ := List.exists_cons_of_ne_nil hnumeral.digits.ne_nil
  have hread := readNumber?_shown negative m e hrest
  rw [hcs] at hread
  rw [Value.written, writtenReal, hcs]
  · exact takes_numeral (hnumeral.digits.digit d List.mem_cons_self) hread pending ha
  · nofun
  · nofun

theorem isTaken_text (s : String) : IsTaken (.text s) := by
  intro pending awaited ha rest hrest
  rw [Value.written, writtenText, String.toList_ofList]
  have htoken := fun i => tokenAt_text i s rest
  simp only [writtenText, String.toList_ofList] at htoken
  exact takes_token (by decide) htoken (step_value ha nofun)

theorem isTaken_of_word (h : (v.written, v.readBack) ∈ wordValues) : IsTaken v :=
  fun pending _ ha rest _ => takes_word h pending ha rest

theorem isTaken_plain (hlist : ∀ xs, v ≠ .list xs) (hrecord : ∀ ms, v ≠ .record ms) :
    IsTaken v := by
  cases v with
  | null => exact isTaken_of_word (by simp [Value.written, Value.readBack, wordValues])
  | truth b =>
    exact isTaken_of_word (by cases b <;> simp [Value.written, Value.readBack, wordValues])
  | whole n => exact isTaken_whole n
  | real b =>
    cases b with
    | finite negative m e => exact isTaken_finite negative m e
    | infinite negative =>
      refine isTaken_of_word ?_
      rw [Value.readBack, Value.written]
      cases negative <;> simp [writtenReal, wordValues, reread]
    | undefined =>
      refine isTaken_of_word ?_
      rw [Value.readBack, Value.written]
      simp [writtenReal, wordValues, reread]
  | text s => exact isTaken_text s
  | list xs => exact absurd rfl (hlist xs)
  | record ms => exact absurd rfl (hrecord ms)

/-! ## Lists and records -/

theorem ends_cons (h : c.isDigit = false ∧ c ≠ '.' ∧ c ≠ 'e' ∧ c ≠ 'E')
    (rest : List Char) : Ends (c :: rest) := by
  rintro _ ⟨⟩
  exact h

/-- What stands behind an item or a member: the others, each with its separator, and a bracket. -/
def tail (pieces : List String) (bracket : Char) : List Char :=
  pieces.flatMap (fun piece => [',', ' '] ++ piece.toList) ++ [bracket]

theorem tail_cons (piece : String) (pieces : List String) (bracket : Char) :
    tail (piece :: pieces) bracket = [','] ++ ([' '] ++ (piece.toList ++ tail pieces bracket)) := by
  simp [tail]

theorem ends_tail (pieces : List String) {bracket : Char}
    (h : bracket.isDigit = false ∧ bracket ≠ '.' ∧ bracket ≠ 'e' ∧ bracket ≠ 'E')
    (rest : List Char) : Ends (tail pieces bracket ++ rest) := by
  cases pieces with
  | nil => exact ends_cons h rest
  | cons piece pieces => exact ends_cons (by decide) _

theorem toList_join_append (s : String) (pieces : List String) (bracket : Char) :
    (join ", " (s :: pieces)).toList ++ [bracket] = s.toList ++ tail pieces bracket := by
  rw [toList_join_cons, List.append_assoc]
  rfl

/-- A mark brings the reader one step on. -/
theorem takes_mark (hc : isGap c = false)
    (ht : ∀ i rest, tokenAt i (c :: rest) = (t, 1)) (hstep : ∀ i, p.step (i, t) = .ok q)
    (rest : List Char) : Takes p [c] q rest :=
  takes_token hc (fun i => ht i rest) hstep

theorem takes_items (pending : List Pending) {xs : List Value} (hxs : ∀ x ∈ xs, IsTaken x)
    (items : List Value) (rest : List Char) :
    Takes (.inside (.list items :: pending) .separator) (tail (xs.map Value.written) ']')
      (.enter (.list (items.reverse ++ xs.map Value.readBack)) pending) rest := by
  induction xs generalizing items with
  | nil =>
    rw [List.map_nil, List.map_nil, List.append_nil]
    exact takes_mark (by decide) (fun _ _ => rfl) (fun _ => rfl) rest
  | cons x xs ih =>
    obtain ⟨hx, hxs⟩ := List.forall_mem_cons.mp hxs
    have hnext := ih hxs (x.readBack :: items)
    rw [List.reverse_cons, List.append_assoc, List.singleton_append] at hnext
    rw [List.map_cons, tail_cons, List.map_cons]
    exact (takes_mark (by decide) (fun _ _ => rfl) (fun _ => rfl) _).trans
      ((takes_gap _ _).trans
        ((hx (.list items :: pending) (.inl rfl) (ends_tail _ (by decide) rest)).trans hnext))

theorem isTaken_list {xs : List Value} (hxs : ∀ x ∈ xs, IsTaken x) : IsTaken (.list xs) := by
  intro pending awaited ha rest hrest
  rw [Value.written, Value.readBack, writtenItems_eq, readBackItems_eq, String.toList_append,
    String.toList_append]
  have hopen : ∀ rest, Takes (.inside pending awaited) "[".toList
      (.inside (.list [] :: pending) .itemOrEnd) rest :=
    takes_mark (by decide) (fun _ _ => rfl) (step_value ha nofun)
  rw [List.append_assoc]
  refine (hopen _).trans ?_
  cases xs with
  | nil => exact takes_mark (by decide) (fun _ _ => rfl) (fun _ => rfl) rest
  | cons x xs =>
    obtain ⟨hx, hxs⟩ := List.forall_mem_cons.mp hxs
    show Takes _ ((join ", " _).toList ++ [']']) _ rest
    rw [List.map_cons, toList_join_append]
    exact (hx _ (.inr rfl) (ends_tail _ (by decide) rest)).trans
      (takes_items pending hxs [x.readBack] rest)

/-- A member is taken in wherever a name is looked for. -/
theorem takes_member {m : String × Value} (hm : IsTaken m.2) (pending : List Pending)
    (members : Register Value) (old : String)
    (ha : awaited = .name ∨ awaited = .nameOrEnd) (hrest : Ends rest) :
    Takes (.inside (.record members old :: pending) awaited) (writtenMember m).toList
      (.inside (.record (members.insert m.1 m.2.readBack) m.1 :: pending) .separator) rest := by
  have hname : ∀ rest, Takes (.inside (.record members old :: pending) awaited)
      (writtenText m.1).toList (.inside (.record members m.1 :: pending) .colon) rest := by
    intro rest
    have htoken := fun i => tokenAt_text i m.1 rest
    simp only [writtenText, String.toList_ofList] at htoken ⊢
    refine takes_token (by decide) htoken fun i => ?_
    obtain rfl | rfl := ha <;> rfl
  have hcolon : (writtenMember m).toList =
      (writtenText m.1).toList ++ ([':'] ++ ([' '] ++ m.2.written.toList)) := by
    rw [writtenMember, String.toList_append, String.toList_append, List.append_assoc]
    rfl
  rw [hcolon]
  exact (hname _).trans ((takes_mark (by decide) (fun _ _ => rfl) (fun _ => rfl) _).trans
    ((takes_gap _ _).trans (hm _ (.inl rfl) hrest)))

theorem takes_members (pending : List Pending) {ms : List (String × Value)}
    (hms : ∀ m ∈ ms, IsTaken m.2) (members : Register Value) (old : String) (rest : List Char) :
    Takes (.inside (.record members old :: pending) .separator) (tail (ms.map writtenMember) '\x7d')
      (.enter (.record (members.insertAll (ms.map fun m => (m.1, m.2.readBack))).entries) pending)
      rest := by
  induction ms generalizing members old with
  | nil => exact takes_mark (by decide) (fun _ _ => rfl) (fun _ => rfl) rest
  | cons m ms ih =>
    obtain ⟨hm, hms⟩ := List.forall_mem_cons.mp hms
    rw [List.map_cons, tail_cons, List.map_cons, Register.insertAll_cons]
    exact (takes_mark (by decide) (fun _ _ => rfl) (fun _ => rfl) _).trans
      ((takes_gap _ _).trans ((takes_member hm pending members old (.inl rfl)
        (ends_tail _ (by decide) rest)).trans (ih hms _ _)))

theorem isTaken_record {ms : List (String × Value)} (hms : ∀ m ∈ ms, IsTaken m.2) :
    IsTaken (.record ms) := by
  intro pending awaited ha rest hrest
  rw [Value.written, Value.readBack, writtenMembers_eq, readBackMembers_eq, String.toList_append,
    String.toList_append]
  have hopen : ∀ rest, Takes (.inside pending awaited) "\x7b".toList
      (.inside (.record .empty "" :: pending) .nameOrEnd) rest :=
    takes_mark (by decide) (fun _ _ => rfl) (step_value ha nofun)
  rw [List.append_assoc]
  refine (hopen _).trans ?_
  cases ms with
  | nil => exact takes_mark (by decide) (fun _ _ => rfl) (fun _ => rfl) rest
  | cons m ms =>
    obtain ⟨hm, hms⟩ := List.forall_mem_cons.mp hms
    show Takes _ ((join ", " _).toList ++ ['\x7d']) _ rest
    rw [List.map_cons, toList_join_append]
    exact (takes_member hm pending .empty "" (.inr rfl) (ends_tail _ (by decide) rest)).trans
      (takes_members pending hms _ _ rest)

theorem isTaken (v : Value) : IsTaken v :=
  Value.induction (fun _ => isTaken_plain) (fun _ => isTaken_list) (fun _ => isTaken_record) v

/-! ## Printable characters -/

theorem isPrintable_toDigits (n : Nat) : ∀ c ∈ Nat.toDigits 16 n, IsPrintable c := by
  have hdigit : ∀ d < 16, IsPrintable d.digitChar := by decide
  induction n using Nat.strongRecOn with
  | ind n ih =>
    by_cases hlt : n < 16
    · rw [Nat.toDigits_of_lt_base hlt]
      exact List.forall_mem_singleton.mpr (hdigit n hlt)
    · rw [Nat.toDigits_of_base_le (by decide) (by omega)]
      exact List.forall_mem_append.mpr ⟨ih (n / 16) (by omega),
        List.forall_mem_singleton.mpr (hdigit _ (Nat.mod_lt n (by decide)))⟩

theorem isPrintable_unitEscape (u : Nat) : ∀ c ∈ unitEscape u, IsPrintable c := by
  rw [unitEscape]
  refine List.forall_mem_append.mpr ⟨?_, isPrintable_toDigits u⟩
  refine List.forall_mem_cons.mpr ⟨by decide, List.forall_mem_cons.mpr ⟨by decide, fun c hc => ?_⟩⟩
  rw [List.eq_of_mem_replicate hc]
  decide

theorem isPrintable_writtenChar (c : Char) : ∀ d ∈ writtenChar c, IsPrintable d := by
  rw [writtenChar]
  split
  case h_8 =>
    split
    · rename_i hplain
      exact List.forall_mem_singleton.mpr hplain
    · intro d hd
      obtain ⟨u, -, hu⟩ := List.mem_flatMap.mp hd
      exact isPrintable_unitEscape u d hu
  all_goals decide

theorem isPrintable_writtenText (s : String) : ∀ c ∈ (writtenText s).toList, IsPrintable c := by
  rw [writtenText, String.toList_ofList]
  refine List.forall_mem_append.mpr
    ⟨List.forall_mem_cons.mpr ⟨by decide, fun c hc => ?_⟩, by decide⟩
  obtain ⟨d, -, hd⟩ := List.mem_flatMap.mp hc
  exact isPrintable_writtenChar d c hd

theorem isPrintable_writtenReal (b : Binary) : ∀ c ∈ (writtenReal b).toList, IsPrintable c := by
  cases b with
  | finite negative m e =>
    obtain ⟨_, ⟨whole, fraction, exponent, hnumeral, -, rfl⟩, hcs⟩ :=
      exists_numeral_shown negative m e
    rw [writtenReal, hcs]
    · exact List.forall_mem_append.mpr ⟨isPrintable_signPart negative, hnumeral.isPrintable⟩
    · nofun
    · nofun
  | infinite negative => cases negative <;> decide
  | undefined => decide

theorem isPrintable_whole (n : Int) : ∀ c ∈ (toString n).toList, IsPrintable c := by
  rw [toList_toString_int]
  exact List.forall_mem_append.mpr
    ⟨isPrintable_signPart _, (isDigits_digitsOf n.natAbs).isPrintable⟩

theorem forall_mem_join {P : Char → Prop} {sep : String} (hsep : ∀ c ∈ sep.toList, P c)
    {pieces : List String} (h : ∀ s ∈ pieces, ∀ c ∈ s.toList, P c) :
    ∀ c ∈ (join sep pieces).toList, P c := by
  cases pieces with
  | nil => exact nofun
  | cons s pieces =>
    obtain ⟨hs, h⟩ := List.forall_mem_cons.mp h
    rw [toList_join_cons]
    refine List.forall_mem_append.mpr ⟨hs, fun c hc => ?_⟩
    obtain ⟨t, ht, hc⟩ := List.mem_flatMap.mp hc
    exact (List.mem_append.mp hc).elim (hsep c) (h t ht c)

/-- What is written for a value is printable throughout; in particular it is one line. -/
theorem isPrintable_written (v : Value) : ∀ c ∈ v.written.toList, IsPrintable c := by
  induction v using Value.induction with
  | plain v hlist hrecord =>
    cases v with
    | null => decide
    | truth b => cases b <;> decide
    | whole n => exact isPrintable_whole n
    | real b => exact isPrintable_writtenReal b
    | text s => exact isPrintable_writtenText s
    | list xs => exact absurd rfl (hlist xs)
    | record ms => exact absurd rfl (hrecord ms)
  | list xs ih =>
    rw [Value.written, writtenItems_eq, String.toList_append, String.toList_append]
    refine List.forall_mem_append.mpr ⟨List.forall_mem_append.mpr ⟨by decide, ?_⟩, by decide⟩
    exact forall_mem_join (by decide) (List.forall_mem_map.mpr ih)
  | record ms ih =>
    rw [Value.written, writtenMembers_eq, String.toList_append, String.toList_append]
    refine List.forall_mem_append.mpr ⟨List.forall_mem_append.mpr ⟨by decide, ?_⟩, by decide⟩
    refine forall_mem_join (by decide) (List.forall_mem_map.mpr fun m hm => ?_)
    rw [writtenMember, String.toList_append, String.toList_append]
    exact List.forall_mem_append.mpr
      ⟨List.forall_mem_append.mpr ⟨isPrintable_writtenText m.1, by decide⟩, ih m hm⟩

/-- **A value is read back.** Every value can be read from what is written for it. -/
theorem read_written (v : Value) : Value.read v.written = .ok v.readBack := by
  have hmark : (v.written.toList.head? == some (Char.ofNat 0xFEFF)) = false := by
    rw [beq_eq_false_iff_ne]
    intro h
    exact absurd (isPrintable_written v _ (List.mem_of_head? h)) (by decide)
  have hread : readOn (.inside [] .value) 0 v.written.toList = .ok (.done v.readBack) := by
    have htaken := isTaken v [] (.inl rfl) (show Ends [] from nofun) 0
    rwa [List.append_nil, readOn_nil] at htaken
  rw [Value.read]
  dsimp only
  rw [hmark]
  show (readOn (.inside [] .value) 0 v.written.toList).bind _ = _
  rw [hread]
  rfl

end DesignAudit.Data
