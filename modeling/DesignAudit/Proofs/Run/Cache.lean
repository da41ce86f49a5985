import DesignAudit.Proofs.Run.Undisturbed

/-!
# The cache is transparent

The cache is keyed by the fingerprint of a report, and holds what a run has read of it. `Sound` says
that every entry is what is read anew from a content seen so far, and bears its fingerprint. A run
keeps this, whether it stops or not (`sound_audit`), so it holds of every world that is reached from
an empty cache. In such a world a run works with the same material as one without a cache
(`cache_transparent`), unless two contents have the same fingerprint.
-/

namespace DesignAudit.Run

open Catalog Encoding Markup Traversal

/-! ## Names of entries -/

theorem length_lowBytes (count n : Nat) : (lowBytes count n).length = count := by
  induction count generalizing n with
  | zero => rfl
  | succ count ih => rw [lowBytes, List.length_cons, ih]

theorem length_bytes (s : Digest) : s.bytes.length = 16 := by
  simp [Digest.bytes, length_lowBytes]

theorem length_flatMap_hexByte (bs : List UInt8) : (bs.flatMap hexByte).length = 2 * bs.length := by
  induction bs with
  | nil => rfl
  | cons b bs ih =>
    rw [List.flatMap_cons, List.length_append, ih, List.length_cons, hexByte]
    simp only [List.length_cons, List.length_nil]
    omega

theorem length_fingerprint (message : List UInt8) : (fingerprint message).toList.length = 32 := by
  rw [fingerprint, String.toList_ofList, length_flatMap_hexByte, length_bytes]

/-- The name of an entry tells the fingerprint. -/
theorem fingerprint_eq_of_cacheNameOf {path path' : String} {b b' : List UInt8}
    (h : cacheNameOf path b = cacheNameOf path' b') : fingerprint b = fingerprint b' := by
  have hlist := congrArg String.toList h
  simp only [cacheNameOf, String.toList_append] at hlist
  have hnames := List.append_cancel_right hlist
  have hlength : (fingerprint b).toList.length = (fingerprint b').toList.length := by
    rw [length_fingerprint, length_fingerprint]
  exact String.toList_injective (List.append_inj_right' hnames hlength)

/-! ## Reading anew -/

/-- What a run works with when a report with the given bytes is read anew. -/
def materialOf (bytes : List UInt8) : Except Stop Material :=
  match tree (normalText bytes) with
  | .error f => .error (.fault f)
  | .ok none => .error (.fault (.noRoot "findall"))
  | .ok (some n) =>
    .ok { text := normalText bytes, root := some n,
          catalogue := { catalogue := build (Site.root n) } }

/-- Reads a report anew, and does not keep it yet. -/
def readOnly (o : Options) (path : String) : Action Material := do
  say "\nProcessing DDR XML..."
  let (text, root) ← readReport o path
  say "\nBuilding DDR catalogs..."
  let catalogue ← buildCatalogue root
  return { text, root, catalogue := { catalogue } }

theorem readAnew_eq (o : Options) (path : String) :
    readAnew o path = readOnly o path >>= fun m => do
      saveToCache o path m.text (.built m.catalogue.catalogue)
      return m := by
  simp only [readAnew, readOnly, bind_assoc, pure_bind]

theorem sameFiles_bytesAt (path : String) : Keeps SameFiles (bytesAt path) := by
  intro w
  rw [after_bytesAt]
  exact refl_of SameFiles w

theorem sameFiles_readOnly (o : Options) (path : String) : Keeps SameFiles (readOnly o path) := by
  refine (sameFiles_say _).bind fun _ => Keeps.bind ?_ fun report => ?_
  · refine (sameFiles_bytesAt path).bind fun bytes => (sameFiles_tell _).bind fun _ => ?_
    exact (Keeps.orStop _ _).bind fun _ => Keeps.pure _
  · refine (sameFiles_say _).bind fun _ => Keeps.bind ?_ fun _ => Keeps.pure _
    exact (sameFiles_tell _).bind fun _ => Keeps.orStop _ _

theorem result_readReport (o : Options) (path : String) (w : World) :
    result (readReport o path) w = result (bytesAt path) w >>= fun bytes =>
      match tree (normalText bytes) with
      | .ok root => .ok (normalText bytes, root)
      | .error f => .error (.fault f) := by
  rw [readReport, result_bind, after_bytesAt]
  refine congrArg _ (funext fun bytes => ?_)
  rw [result_bind, result_tell, ok_bind, result_bind]
  cases tree (normalText bytes) <;> rfl

theorem result_buildCatalogue (root : Option Node) (w : World) :
    result (buildCatalogue root) w =
      match root with
      | some n => .ok (build (Site.root n))
      | none => .error (.fault (.noRoot "findall")) := by
  rw [buildCatalogue, result_bind, result_tell]
  cases root <;> rfl

/-- What is read anew depends on the bytes of the report alone. -/
theorem result_readOnly (o : Options) (path : String) (w : World) :
    result (readOnly o path) w = result (bytesAt path) w >>= materialOf := by
  rw [readOnly, result_bind, result_say, ok_bind, result_bind, result_readReport,
    (sameFiles_say _ w).result_bytesAt path, bind_assoc]
  refine congrArg _ (funext fun bytes => ?_)
  rw [materialOf]
  cases tree (normalText bytes) with
  | error f => rfl
  | ok root =>
    rw [ok_bind, result_bind, result_say, ok_bind, result_bind, result_buildCatalogue]
    cases root <;> rfl

/-! ## Entries -/

/-- What is kept of bytes is what is read anew from them. -/
def Faithful (bytes : List UInt8) (c : Cached) : Prop :=
  ∃ n, tree (normalText bytes) = .ok (some n) ∧
    c = ⟨normalText bytes, .built (build (Site.root n))⟩

/-- The cache folder is there, and all that is in it are entries for contents that were seen. -/
structure Sound (seen : List (List UInt8)) (w : World) : Prop where
  folder : w.files.get? w.cache = some .folder
  entries : ∀ name content, w.files.get? (below w.cache name) = some content →
    ∃ path, ∃ bytes ∈ seen, ∃ c,
      name = cacheNameOf path bytes ∧ content = .cached c ∧ Faithful bytes c

theorem Sound.of_undisturbed {seen : List (List UInt8)} {w w' : World} (h : Sound seen w)
    (hchange : Undisturbed w w') : Sound seen w' where
  folder := by rw [hchange.cache_eq, hchange.folder, h.folder]
  entries := by
    intro name content hcontent
    rw [hchange.cache_eq] at hcontent
    exact h.entries name content (hchange.entries name content hcontent)

theorem Sound.mono {seen seen' : List (List UInt8)} {w : World} (h : Sound seen w)
    (hsub : ∀ bytes ∈ seen, bytes ∈ seen') : Sound seen' w where
  folder := h.folder
  entries := by
    intro name content hcontent
    obtain ⟨path, bytes, hbytes, hentry⟩ := h.entries name content hcontent
    exact ⟨path, bytes, hsub bytes hbytes, hentry⟩

variable {bytes : List UInt8}

/-- A faithful entry may be added. -/
theorem Sound.put {seen : List (List UInt8)} {w : World} (h : Sound seen w) (path : String)
    (hbytes : bytes ∈ seen) {c : Cached} (hc : Faithful bytes c) :
    Sound seen (w.put (below w.cache (cacheNameOf path bytes)) (.cached c)) where
  folder := by
    show (w.files.insert _ _).get? w.cache = _
    rw [Register.get?_insert, if_neg (below_ne_self _ _).symm, h.folder]
  entries := by
    intro name content hcontent
    change (w.files.insert _ _).get? (below w.cache name) = _ at hcontent
    rw [Register.get?_insert] at hcontent
    by_cases hname : below w.cache name = below w.cache (cacheNameOf path bytes)
    · rw [if_pos hname] at hcontent
      exact ⟨path, bytes, hbytes, c, below_injective hname, (Option.some.inj hcontent).symm, hc⟩
    · rw [if_neg hname] at hcontent
      exact h.entries name content hcontent

/-! ## Looking into the cache -/

theorem result_cacheFolder (w : World) : result cacheFolder w = .ok w.cache :=
  result_homeFolder "Cache" w

section Folder

variable {w : World} (hfolder : w.files.get? w.cache = some .folder)

include hfolder

theorem after_cacheFolder : after cacheFolder w = w := by
  have hexists : w.exists (below w.home "Cache") = true := by
    rw [World.exists, Register.has, ← World.cache, hfolder]
    rfl
  rw [cacheFolder, after_homeFolder, if_pos hexists]

theorem result_cachePath (path : String) :
    result (cachePath path) w =
      result (bytesAt path) w >>= fun bytes => .ok (below w.cache (cacheNameOf path bytes)) := by
  rw [cachePath, result_bind, result_cacheFolder, ok_bind, after_cacheFolder hfolder, result_bind,
    cacheName, result_bind, after_bytesAt, bind_assoc]
  rfl

theorem result_cachePath_of_ok {path : String} {bytes : List UInt8}
    (hbytes : result (bytesAt path) w = .ok bytes) :
    result (cachePath path) w = .ok (below w.cache (cacheNameOf path bytes)) := by
  rw [result_cachePath hfolder, hbytes, ok_bind]

theorem after_cachePath (path : String) : after (cachePath path) w = w := by
  have hname : after (cacheName path) w = w := by
    rw [cacheName, after_bind, after_bytesAt]
    cases result (bytesAt path) w <;> rfl
  rw [cachePath, after_bind_of_ok (result_cacheFolder w), after_cacheFolder hfolder, after_bind,
    hname]
  cases result (cacheName path) w <;> rfl

end Folder

/-- What the cache holds for a report with the given bytes. -/
def World.entry? (w : World) (path : String) (bytes : List UInt8) : Option Cached :=
  match w.files.get? (below w.cache (cacheNameOf path bytes)) with
  | some (.cached c) => some c
  | _ => none

/-- Looking into the cache finds the entry. Nothing is removed, since there are only entries. -/
theorem loadFromCache_of_ok {seen : List (List UInt8)} {w : World} (h : Sound seen w) {o : Options}
    (ho : o.cache = true) {path : String} (hbytes : result (bytesAt path) w = .ok bytes) :
    result (loadFromCache o path) w = .ok (w.entry? path bytes) ∧
      SameFiles w (after (loadFromCache o path) w) := by
  have hpath := result_cachePath_of_ok h.folder hbytes
  have hentry : ∀ content, w.files.get? (below w.cache (cacheNameOf path bytes)) = some content →
      ∃ c, content = .cached c := by
    intro content hcontent
    obtain ⟨-, -, -, c, -, hc, -⟩ := h.entries _ content hcontent
    exact ⟨c, hc⟩
  unfold loadFromCache
  rw [if_pos ho, result_bind, after_bind_of_ok hpath, hpath, after_cachePath h.folder, ok_bind,
    result_bind, after_bind_of_ok (result_get w), result_get, after_get, ok_bind, World.entry?]
  generalize below w.cache (cacheNameOf path bytes) = file at hentry ⊢
  cases hget : w.files.get? file with
  | some content =>
    obtain ⟨c, rfl⟩ := hentry content hget
    rw [if_pos (by rw [World.exists, Register.has, hget]; rfl)]
    exact ⟨rfl, (sameFiles_say _).bind (fun _ => Keeps.pure _) w⟩
  | none =>
    by_cases hexists : w.exists file = true
    · -- without an entry, only a folder can be there
      have hfolder : w.isFolder file = true := by
        rw [World.exists, Register.has, hget] at hexists
        exact hexists
      rw [if_pos hexists]
      simp only [hfolder, if_true]
      exact ⟨rfl, (sameFiles_say _).bind (fun _ => Keeps.pure _) w⟩
    · rw [if_neg hexists]
      exact ⟨rfl, refl_of SameFiles w⟩

/-- Looking into the cache stops where the report cannot be read, and gives an entry or nothing
otherwise. -/
theorem loadFromCache_cases {seen : List (List UInt8)} {w : World} (h : Sound seen w) (o : Options)
    (path : String) :
    SameFiles w (after (loadFromCache o path) w) ∧
    ((∃ e, result (bytesAt path) w = .error e ∧ result (loadFromCache o path) w = .error e) ∨
      result (loadFromCache o path) w = .ok none ∨
      ∃ bytes c, result (bytesAt path) w = .ok bytes ∧ w.entry? path bytes = some c ∧
        result (loadFromCache o path) w = .ok (some c)) := by
  cases ho : o.cache with
  | false =>
    unfold loadFromCache
    rw [if_neg (by rw [ho]; decide)]
    exact ⟨refl_of SameFiles w, .inr (.inl rfl)⟩
  | true =>
    cases hbytes : result (bytesAt path) w with
    | error e =>
      have hpath : result (cachePath path) w = .error e := by
        rw [result_cachePath h.folder, hbytes, error_bind]
      unfold loadFromCache
      rw [if_pos ho, result_bind, after_bind_of_error hpath, hpath, after_cachePath h.folder]
      exact ⟨refl_of SameFiles w, .inl ⟨e, rfl, rfl⟩⟩
    | ok bytes =>
      obtain ⟨hresult, hsame⟩ := loadFromCache_of_ok h ho hbytes
      refine ⟨hsame, .inr ?_⟩
      cases hentry : w.entry? path bytes with
      | none => exact .inl (hresult.trans (by rw [hentry]))
      | some c => exact .inr ⟨bytes, c, rfl, hentry, hresult.trans (by rw [hentry])⟩

/-! ## Keeping what was read -/

/-- What was read is kept under the name of the bytes, or not at all. -/
theorem saveToCache_of_ok {w : World} (hfolder : w.files.get? w.cache = some .folder) (o : Options)
    {path : String} (hbytes : result (bytesAt path) w = .ok bytes) (text : String) (c : Full) :
    result (saveToCache o path text (.built c)) w = .ok ⟨⟩ ∧
      (SameFiles w (after (saveToCache o path text (.built c)) w) ∨
        SameFiles (w.put (below w.cache (cacheNameOf path bytes)) (.cached ⟨text, .built c⟩))
          (after (saveToCache o path text (.built c)) w)) := by
  have hpath := result_cachePath_of_ok hfolder hbytes
  unfold saveToCache
  split
  · rw [result_bind, after_bind_of_ok hpath, hpath, after_cachePath hfolder, ok_bind, result_bind,
      after_bind_of_ok (result_get w), result_get, after_get, ok_bind]
    split
    · exact ⟨rfl, .inl (sameFiles_say _ w)⟩
    · exact ⟨rfl, .inr (sameFiles_say _ _)⟩
  · exact ⟨rfl, .inl (refl_of SameFiles w)⟩

theorem faithful_of_materialOf {m : Material} (h : materialOf bytes = .ok m) :
    Faithful bytes ⟨m.text, .built m.catalogue.catalogue⟩ := by
  unfold materialOf at h
  split at h
  · cases h
  · cases h
  · rename_i n htree
    obtain rfl := Except.ok.inj h
    exact ⟨n, htree, rfl⟩

/-- A faithful entry gives what is read anew. -/
theorem result_readKept {c : Cached} (h : Faithful bytes c) (w : World) :
    result (readKept c) w = materialOf bytes := by
  obtain ⟨n, htree, rfl⟩ := h
  rw [readKept, result_bind, result_say, ok_bind, result_bind, materialOf, htree]
  rfl

theorem sameFiles_readKept (c : Cached) : Keeps SameFiles (readKept c) :=
  (sameFiles_say _).bind fun _ => (Keeps.orStop _ _).bind fun _ => Keeps.pure _

/-- The bytes that a run over a path reads, if there are any. -/
def contentsAt (w : World) (path : String) : List (List UInt8) :=
  match result (bytesAt path) w with
  | .ok bytes => [bytes]
  | .error _ => []

theorem mem_contentsAt {w : World} {path : String}
    (h : result (bytesAt path) w = .ok bytes) : bytes ∈ contentsAt w path := by
  rw [contentsAt, h]
  exact List.mem_cons_self

section Sound

variable {seen : List (List UInt8)} {w : World} (h : Sound seen w) (o : Options) (path : String)

include h

theorem result_readAnew : result (readAnew o path) w = result (bytesAt path) w >>= materialOf := by
  have hsame := sameFiles_readOnly o path w
  rw [readAnew_eq, result_bind, result_readOnly]
  cases hbytes : result (bytesAt path) w with
  | error e => rfl
  | ok bytes =>
    rw [ok_bind]
    cases materialOf bytes with
    | error e => rfl
    | ok m =>
      have hsave := saveToCache_of_ok (h.of_undisturbed hsame.undisturbed).folder o
        ((hsame.result_bytesAt path).trans hbytes) m.text m.catalogue.catalogue
      rw [ok_bind, result_bind, hsave.1]
      rfl

/-- What is read anew is kept under its own fingerprint, and a report that cannot be read leaves no
entry. -/
theorem sound_readAnew : Sound (contentsAt w path ++ seen) (after (readAnew o path) w) := by
  have hsame := sameFiles_readOnly o path w
  have hread : Sound (contentsAt w path ++ seen) (after (readOnly o path) w) :=
    (h.of_undisturbed hsame.undisturbed).mono fun _ hb => List.mem_append_right _ hb
  rw [readAnew_eq]
  cases hresult : result (readOnly o path) w with
  | error e =>
    rw [after_bind_of_error hresult]
    exact hread
  | ok m =>
    -- only now something is kept, and the file still holds the bytes that were read
    obtain ⟨bytes, hbytes, hm⟩ := bind_eq_ok_iff.mp ((result_readOnly o path w).symm.trans hresult)
    have hsave := saveToCache_of_ok hread.folder o
      ((hsame.result_bytesAt path).trans hbytes) m.text m.catalogue.catalogue
    rw [after_bind_of_ok hresult, after_bind_of_ok hsave.1, after_pure]
    rcases hsave.2 with hkept | hput
    · exact hread.of_undisturbed hkept.undisturbed
    · have hmem : bytes ∈ contentsAt w path ++ seen :=
        List.mem_append_left _ (mem_contentsAt hbytes)
      exact (hread.put path hmem (faithful_of_materialOf hm)).of_undisturbed hput.undisturbed

/-- Unless a content seen has the fingerprint of the present one, an entry for the present one is
faithful to it. -/
theorem faithful_of_entry? {bytes : List UInt8}
    (hdistinct : ∀ b ∈ seen, fingerprint b = fingerprint bytes → b = bytes) {c : Cached}
    (hc : w.entry? path bytes = some c) : Faithful bytes c := by
  rw [World.entry?] at hc
  split at hc
  · rename_i c' hget
    obtain ⟨path', b, hb, d, hname, hcontent, hfaithful⟩ := h.entries _ _ hget
    -- the entry may come from another file of the same name, but its fingerprint is the present one
    have hbytes : b = bytes := hdistinct b hb (fingerprint_eq_of_cacheNameOf hname).symm
    have hsame : d = c := (Content.cached.inj hcontent).symm.trans (Option.some.inj hc)
    exact hbytes ▸ hsame ▸ hfaithful
  · cases hc

/-- What a run works with depends on the bytes of the report alone. -/
theorem result_prepare
    (hdistinct : ∀ now ∈ contentsAt w path, ∀ b ∈ seen, fingerprint b = fingerprint now → b = now) :
    result (prepare o path) w = result (bytesAt path) w >>= materialOf := by
  obtain ⟨hsame, hcases⟩ := loadFromCache_cases h o path
  have hanew : result (readAnew o path) (after (loadFromCache o path) w) =
      result (bytesAt path) w >>= materialOf := by
    rw [result_readAnew (h.of_undisturbed hsame.undisturbed), hsame.result_bytesAt]
  rw [prepare, result_bind]
  rcases hcases with ⟨e, hbytes, hload⟩ | hload | ⟨bytes, c, hbytes, hentry, hload⟩
  · rw [hload, hbytes, error_bind, error_bind]
  · rw [hload, ok_bind]
    exact hanew
  · rw [hload, ok_bind, Option.filter_some]
    -- an entry without a text is passed over, and the report is read anew
    cases c.isUseful with
    | false => exact hanew
    | true =>
      have hfaithful := faithful_of_entry? h path (hdistinct bytes (mem_contentsAt hbytes)) hentry
      rw [hbytes, ok_bind]
      exact result_readKept hfaithful _

theorem sound_prepare : Sound (contentsAt w path ++ seen) (after (prepare o path) w) := by
  obtain ⟨hsame, hcases⟩ := loadFromCache_cases h o path
  have hload := h.of_undisturbed hsame.undisturbed
  have hkeep : Sound (contentsAt w path ++ seen) (after (loadFromCache o path) w) :=
    hload.mono fun _ hb => List.mem_append_right _ hb
  have hanew : Sound (contentsAt w path ++ seen)
      (after (readAnew o path) (after (loadFromCache o path) w)) := by
    have hcontents : contentsAt (after (loadFromCache o path) w) path = contentsAt w path := by
      rw [contentsAt, contentsAt, hsame.result_bytesAt]
    exact hcontents ▸ sound_readAnew hload o path
  rw [prepare]
  rcases hcases with ⟨e, -, hresult⟩ | hresult | ⟨bytes, c, -, -, hresult⟩
  · rw [after_bind_of_error hresult]
    exact hkeep
  · rw [after_bind_of_ok hresult]
    exact hanew
  · rw [after_bind_of_ok hresult, Option.filter_some]
    cases c.isUseful with
    | false => exact hanew
    | true => exact hkeep.of_undisturbed (sameFiles_readKept c _).undisturbed

/-- A run keeps the cache sound, whether it stops or not. -/
theorem sound_audit (machine : Machine) (checks : Option (List (String × CheckFile)))
    (base : String) :
    Sound (contentsAt w path ++ seen) (after (audit o machine checks path base) w) := by
  have hreport : Sound (contentsAt w path ++ seen)
      (after (auditReport o machine checks path base) w) := by
    have hprepare := sound_prepare h o path
    unfold auditReport
    cases hresult : result (prepare o path) w with
    | error e =>
      rw [after_bind_of_error hresult]
      exact hprepare
    | ok m =>
      rw [after_bind_of_ok hresult]
      refine hprepare.of_undisturbed ((undisturbed_summarise _).bind (fun _ => ?_) _)
      cases checks with
      | some files => exact undisturbed_runChecks _ _ _ _ _
      | none =>
        have hhome : Keeps Undisturbed (homePath "Checks") := fun w => refl_of Undisturbed w
        exact hhome.bind fun _ => (undisturbed_say _).bind fun _ => undisturbed_say _
  have hstop : ∀ e, Keeps Undisturbed (tellStop path e) := by
    intro e
    unfold tellStop
    split
    · exact Keeps.throw _
    · exact undisturbed_say _
    · exact undisturbed_say _
    · exact undisturbed_say _
  rw [audit, after_tryCatch]
  cases result (auditReport o machine checks path base) w with
  | ok _ => exact hreport
  | error e => exact hreport.of_undisturbed (hstop e _)

end Sound

/-! ## Histories -/

/-- The worlds that come about from an empty cache by runs over reports, with the contents that were
read by these runs. Between the runs anything may change, but nothing is written into the cache. -/
inductive Reached : List (List UInt8) → World → Prop
  | start {w : World} (hfolder : w.files.get? w.cache = some .folder)
      (hempty : ∀ name, w.files.get? (below w.cache name) = none) : Reached [] w
  | change {seen : List (List UInt8)} {w w' : World} (h : Reached seen w)
      (hchange : Undisturbed w w') : Reached seen w'
  | run {seen : List (List UInt8)} {w : World} (h : Reached seen w) (o : Options)
      (machine : Machine) (checks : Option (List (String × CheckFile))) (path base : String) :
      Reached (contentsAt w path ++ seen) (after (audit o machine checks path base) w)

theorem Reached.sound {seen : List (List UInt8)} {w : World} (h : Reached seen w) :
    Sound seen w := by
  induction h with
  | start hfolder hempty =>
    refine ⟨hfolder, fun name content hcontent => ?_⟩
    rw [hempty name] at hcontent
    cases hcontent
  | change _ hchange ih => exact ih.of_undisturbed hchange
  | run _ o machine checks path base ih => exact sound_audit ih o path machine checks base

/-- **The cache is transparent.** After any runs over reports that began with an empty cache, a run
with the cache hands to the checks the same text, tree and catalogue as one without it, or stops for
the same reason, unless the report has the fingerprint of another content that was seen. -/
theorem cache_transparent {seen : List (List UInt8)} {w : World} (h : Reached seen w)
    (path : String)
    (hdistinct : ∀ now ∈ contentsAt w path, ∀ b ∈ seen, fingerprint b = fingerprint now → b = now)
    (debug : Bool) :
    result (prepare { debug, cache := true } path) w =
      result (prepare { debug, cache := false } path) w := by
  rw [result_prepare h.sound _ path hdistinct, result_prepare h.sound _ path hdistinct]

/-- A home folder with an empty cache and a report that has only a root. -/
def emptyCache : World :=
  { home := "h", files := .ofList [("h/Cache", .folder), ("h/a.xml", .bytes [60, 70, 47, 62])] }

/-- The world after a first run over the report. -/
def ranOnce : World := after (audit { cache := true } {} none "h/a.xml" "a_parsed") emptyCache

/-- The same with another root in the report. -/
def rewritten : World := ranOnce.put "h/a.xml" (.bytes [60, 71, 47, 62])

/-- The first run leaves an entry, and the cache is transparent for the report and for what it is
changed into. -/
theorem rewritten_transparent :
    (ranOnce.entry? "h/a.xml" [60, 70, 47, 62]).isSome = true ∧
    result (prepare { cache := true } "h/a.xml") ranOnce =
      result (prepare { cache := false } "h/a.xml") ranOnce ∧
    result (prepare { cache := true } "h/a.xml") rewritten =
      result (prepare { cache := false } "h/a.xml") rewritten := by
  have hseen : contentsAt emptyCache "h/a.xml" ++ [] = [[60, 70, 47, 62]] := by decide +kernel
  have houtside : Outside "h" "h/a.xml" := by
    have hpath : "h/a.xml" = below "h" "a.xml" := by decide +kernel
    rw [hpath]
    exact outside_of_head? (by decide)
  have hstart : Reached [] emptyCache := by
    refine .start (by rfl) fun name => ?_
    have hfolder : below emptyCache.cache name ≠ "h/Cache" := below_ne_self _ _
    have hreport : below emptyCache.cache name ≠ "h/a.xml" := (houtside.2 name).symm
    show ((Register.empty.insert "h/Cache" Content.folder).insert "h/a.xml" _).get? _ = none
    rw [Register.get?_insert, if_neg hreport, Register.get?_insert, if_neg hfolder,
      Register.get?_empty]
  have hran : Reached [[60, 70, 47, 62]] ranOnce := hseen ▸ hstart.run _ _ _ _ _
  have hrewritten : Reached [[60, 70, 47, 62]] rewritten := by
    have hhome : ranOnce.home = "h" := by decide +kernel
    refine hran.change (undisturbed_put ?_ _)
    rw [hhome]
    exact houtside
  refine ⟨by decide +kernel, cache_transparent hran _ ?_ false,
    cache_transparent hrewritten _ ?_ false⟩
  · decide +kernel
  · decide +kernel

end DesignAudit.Run
