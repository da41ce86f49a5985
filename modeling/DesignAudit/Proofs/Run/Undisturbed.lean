import DesignAudit.Proofs.Register
import DesignAudit.Proofs.Run.Action
import DesignAudit.Run.Audit

/-!
# What leaves the cache as it is

Once a run has what it works with, it only reports, and writes into the folder of exports. The cache
folder stays there, and nothing comes into it (`undisturbed_runChecks`).
-/

namespace DesignAudit.Run

open Text Traversal

variable {α β : Type}

/-- The path of the cache folder. -/
def World.cache (w : World) : String := below w.home "Cache"

/-- From one world to another, nothing is written into the cache folder. What is in it may be
removed. -/
structure Undisturbed (w w' : World) : Prop where
  home : w'.home = w.home
  folder : w'.files.get? w.cache = w.files.get? w.cache
  entries : ∀ name content, w'.files.get? (below w.cache name) = some content →
    w.files.get? (below w.cache name) = some content

variable {home path : String} {w : World}

theorem Undisturbed.cache_eq {w w' : World} (h : Undisturbed w w') : w'.cache = w.cache := by
  rw [World.cache, World.cache, h.home]

instance : IsPreorder World Undisturbed where
  refl _ := ⟨rfl, rfl, fun _ _ h => h⟩
  trans w w' w'' h h' := by
    obtain ⟨home', folder', entries'⟩ := h'
    rw [h.cache_eq] at folder' entries'
    exact ⟨home'.trans h.home, folder'.trans h.folder,
      fun name content hcontent => h.entries name content (entries' name content hcontent)⟩

theorem SameFiles.undisturbed {w w' : World} (h : SameFiles w w') : Undisturbed w w' where
  home := h.home
  folder := by rw [h.files]
  entries := by
    intro name content hcontent
    rw [h.files] at hcontent
    exact hcontent

theorem undisturbed_say (s : String) : Keeps Undisturbed (say s) :=
  (sameFiles_say s).mono SameFiles.undisturbed

theorem undisturbed_tell (xs : List String) : Keeps Undisturbed (tell xs) :=
  (sameFiles_tell xs).mono SameFiles.undisturbed

/-! ## Writing outside of the cache -/

/-- A path is neither that of the cache folder nor in it. -/
def Outside (home path : String) : Prop :=
  path ≠ below home "Cache" ∧ ∀ name, path ≠ below (below home "Cache") name

theorem toList_below (folder name : String) :
    (below folder name).toList = folder.toList ++ '/' :: name.toList := by
  rw [below, String.toList_append, String.toList_append, List.append_assoc]
  rfl

theorem below_injective {folder name name' : String} (h : below folder name = below folder name') :
    name = name' := by
  have hlist := congrArg String.toList h
  rw [toList_below, toList_below] at hlist
  exact String.toList_injective (List.cons.inj (List.append_cancel_left hlist)).2

theorem below_ne_self (folder name : String) : below folder name ≠ folder := by
  intro h
  have hlength := congrArg (fun s => s.toList.length) h
  simp only [toList_below, List.length_append, List.length_cons] at hlength
  omega

theorem below_below (folder middle name : String) :
    below (below folder middle) name = below folder (below middle name) := by
  apply String.toList_injective
  simp only [toList_below, List.append_assoc, List.cons_append]

/-- What is in the home folder under a name with another first character is outside of the cache. -/
theorem outside_of_head? (h : path.toList.head? ≠ some 'C') :
    Outside home (below home path) := by
  refine ⟨?_, ?_⟩
  · intro heq
    rw [below_injective heq] at h
    exact h rfl
  · intro name heq
    rw [below_below] at heq
    rw [below_injective heq, toList_below] at h
    exact h rfl

theorem undisturbed_put (h : Outside w.home path) (c : Content) :
    Undisturbed w (w.put path c) where
  home := rfl
  folder := by rw [World.cache, World.put, Register.get?_insert, if_neg h.1.symm]
  entries := by
    intro name content hcontent
    rw [World.cache, World.put, Register.get?_insert, if_neg (h.2 name).symm] at hcontent
    exact hcontent

/-- In a home folder, nothing is written into the cache. -/
def Spared (home : String) (w w' : World) : Prop := w.home = home → Undisturbed w w'

instance (home : String) : IsPreorder World (Spared home) where
  refl w _ := refl_of Undisturbed w
  trans _ _ _ h h' hhome := trans_of Undisturbed (h hhome) (h' ((h hhome).home.trans hhome))

theorem Keeps.spared {x : Action α} (h : Keeps Undisturbed x) (home : String) :
    Keeps (Spared home) x :=
  h.mono fun h _ => h

theorem spared_put (h : Outside home path) (c : Content) :
    Keeps (Spared home) (put path c) := by
  rintro w rfl
  exact undisturbed_put h c

/-- Goes on with the result that an action has in the home folder. -/
theorem Keeps.bind_spared {x : Action α} {f : α → Action β} {a : α}
    (hx : Keeps (Spared home) x) (hresult : ∀ w : World, w.home = home → result x w = .ok a)
    (hf : Keeps (Spared home) (f a)) : Keeps (Spared home) (x >>= f) := by
  intro w hhome
  rw [after_bind, hresult w hhome]
  exact trans_of (Spared home) (hx w) (hf (after x w)) hhome

theorem result_homePath (name : String) (w : World) :
    result (homePath name) w = .ok (below w.home name) := rfl

theorem after_homePath (name : String) (w : World) : after (homePath name) w = w := rfl

theorem result_homeFolder (name : String) (w : World) :
    result (homeFolder name) w = .ok (below w.home name) := by
  unfold homeFolder
  rw [result_bind, result_homePath, after_homePath, ok_bind, result_bind, result_get, after_get,
    ok_bind]
  split <;> rfl

theorem after_homeFolder (name : String) (w : World) :
    after (homeFolder name) w =
      if w.exists (below w.home name) then w else w.put (below w.home name) .folder := by
  unfold homeFolder
  simp only [after_bind, result_homePath, after_homePath, result_get, after_get]
  split <;> rfl

/-! ## The report of a run -/

theorem spared_homeFolder (home : String) {name : String} (h : name.toList.head? ≠ some 'C') :
    Keeps (Spared home) (homeFolder name) := by
  rintro w rfl
  rw [after_homeFolder]
  split
  · exact refl_of Undisturbed w
  · exact undisturbed_put (outside_of_head? h) _

theorem spared_writeReport (h : Outside home path)
    (sheets : List (String × Leaf)) : Keeps (Spared home) (writeReport path sheets) := by
  rw [writeReport]
  refine (spared_put h _).bind fun _ => ?_
  split
  · exact Keeps.throw _
  · exact Keeps.pure _

theorem undisturbed_tellWriting (o : Options) (places : Option (Register Number.Binary))
    (sheets : List (String × Leaf)) : Keeps Undisturbed (tellWriting o places sheets) := by
  unfold tellWriting
  refine Keeps.ite ((undisturbed_say _).bind fun _ => ?_) (Keeps.pure _)
  cases places with
  | none => exact Keeps.pure _
  | some p => exact (undisturbed_tell _).bind fun _ => Keeps.pure _

theorem sameFiles_openFile (o : Options) (m : Machine) (path : String) :
    Keeps SameFiles (openFile o m path) := by
  have hfailed : ∀ reason, Keeps SameFiles
      (if o.debug = true then say ("[DEBUG] Error opening file: " ++ reason) else pure ()) :=
    fun reason => (sameFiles_say _).ite (Keeps.pure _)
  unfold openFile
  refine Keeps.when (sameFiles_say _) (fun _ => ?_) ()
  dsimp only
  split
  · exact Keeps.pure _
  · exact hfailed _
  · exact (sameFiles_say _).bind fun _ => (hfailed _).ite (Keeps.pure _)

theorem undisturbed_openFile (o : Options) (m : Machine) (path : String) :
    Keeps Undisturbed (openFile o m path) :=
  (sameFiles_openFile o m path).mono SameFiles.undisturbed

/-- Writing the report does not touch the cache. -/
theorem undisturbed_generate (o : Options) (m : Machine) (sheets : Register Leaf) (base : String)
    (total : Int) (places : Option (Register Number.Binary)) :
    Keeps Undisturbed (generate o m sheets base total places) := by
  intro w
  have hpath : ∀ name, Outside w.home (below (below w.home "Exports") name) := by
    intro name
    rw [below_below]
    refine outside_of_head? ?_
    rw [toList_below]
    show some 'E' ≠ some 'C'
    decide
  have hreport : Keeps (Spared w.home) (reportPath base) :=
    (spared_homeFolder w.home (by decide)).bind fun _ => Keeps.pure _
  have hresult : ∀ v : World, v.home = w.home → result (reportPath base) v =
      .ok (below (below w.home "Exports") (lastName base ++ "_full_report.xlsx")) := by
    intro v hv
    rw [reportPath, result_bind, result_homeFolder, hv]
    rfl
  have htell := fun xs => (undisturbed_tell xs).spared w.home
  have hsay := fun s => (undisturbed_say s).spared w.home
  refine Keeps.bind_spared hreport hresult ?_ w rfl
  refine Keeps.when (htell _) (fun _ => ?_) ()
  refine ((undisturbed_tellWriting o _ _).spared w.home).bind fun told => ?_
  refine (spared_writeReport (hpath _) _).bind fun pages => ?_
  refine Keeps.when (htell _) (fun _ => ?_) ()
  refine (Keeps.mapM (fun _ => Keeps.orStop _ _) _).bind fun formatted => ?_
  refine (spared_put (hpath _) _).bind fun _ => ?_
  refine ((undisturbed_openFile o m _).spared w.home).bind fun _ => ?_
  exact (hsay _).bind fun _ => hsay _

/-! ## Checks -/

theorem undisturbed_summarise (c : Catalog.Shared) : Keeps Undisturbed (summarise c) := by
  have hpart : ∀ p line, Keeps Undisturbed (tellPart c p line) := by
    intro p line
    unfold tellPart
    exact (Keeps.throw _).ite (undisturbed_say _)
  unfold summarise
  refine (hpart _ _).bind fun _ => (hpart _ _).bind fun _ => (hpart _ _).bind fun _ => ?_
  refine (hpart _ _).bind fun _ => (hpart _ _).bind fun _ => (hpart _ _).bind fun _ => ?_
  exact (hpart _ _).bind fun _ => undisturbed_say _

theorem undisturbed_loadChecks (files : List (String × CheckFile)) :
    Keeps Undisturbed (loadChecks files) := by
  have hload : ∀ name file, Keeps Undisturbed (loadCheck name file) := by
    intro name file
    cases file with
    | ok c => exact Keeps.pure _
    | error reason => exact (undisturbed_say _).bind fun _ => Keeps.pure _
  unfold loadChecks
  refine (Keeps.mapM (fun file => ?_) _).bind fun _ => Keeps.pure _
  refine (hload _ _).bind fun check => ?_
  split
  · exact Keeps.pure _
  · split
    · exact Keeps.pure _
    · exact (Keeps.orStop _ _).bind fun _ => Keeps.pure _

theorem undisturbed_runCheck (m : Material) (r : Results) (c : Ready) :
    Keeps Undisturbed (runCheck m r c) := by
  have hsay : ∀ s (r : Results), Keeps Undisturbed (say s >>= fun _ => pure r) :=
    fun s r => (undisturbed_say s).bind fun _ => Keeps.pure r
  unfold runCheck
  refine (undisturbed_say _).bind fun _ => ?_
  dsimp only
  split
  · exact hsay _ r
  · refine (undisturbed_tell _).bind fun _ => (hsay _ r).ite ?_
    split
    · exact hsay _ r
    · exact hsay _ _

theorem undisturbed_tellDone (o : Options) (total : Nat) : Keeps Undisturbed (tellDone o total) :=
  (undisturbed_tell _).ite (undisturbed_tell _)

/-- The checks leave the cache as it is. -/
theorem undisturbed_runChecks (o : Options) (machine : Machine) (m : Material)
    (files : List (String × CheckFile)) (base : String) :
    Keeps Undisturbed (runChecks o machine m files base) := by
  unfold runChecks
  refine (undisturbed_say _).bind fun _ => (undisturbed_loadChecks files).bind fun checks => ?_
  refine (Keeps.foldlM (undisturbed_runCheck m) _ _).bind fun r => ?_
  refine (undisturbed_tellDone o _).bind fun _ => ?_
  exact (undisturbed_say _).ite (undisturbed_generate _ _ _ _ _ _)

end DesignAudit.Run
