import DesignAudit.Proofs.Traversal
import DesignAudit.Run.World
import Mathlib.Order.Defs.Unbundled

/-!
# What actions do

An action is followed in two parts: what it gives or why it stops (`result`), and the world after it
(`after`). An action `Keeps` a relation if it leads from each world to a related one, whether it
stops or not. For a preorder this follows from the parts of the action. The first such relation is
`SameFiles`: an action that only reports leaves all files as they are.
-/

namespace DesignAudit.Run

open Traversal

variable {α β : Type}

/-- What an action gives, or why it stops. -/
def result (x : Action α) (w : World) : Except Stop α := (x.run.run w).1

def after (x : Action α) (w : World) : World := (x.run.run w).2

@[simp]
theorem after_pure (a : α) (w : World) : after (pure a) w = w := rfl

@[simp]
theorem result_get (w : World) : result get w = .ok w := rfl

@[simp]
theorem after_get (w : World) : after get w = w := rfl

theorem result_bind (x : Action α) (f : α → Action β) (w : World) :
    result (x >>= f) w = result x w >>= fun a => result (f a) (after x w) := by
  simp only [result, after, ExceptT.run_bind, StateT.run_bind]
  rcases x.run.run w with ⟨_ | a, w'⟩ <;> rfl

theorem after_bind (x : Action α) (f : α → Action β) (w : World) :
    after (x >>= f) w =
      match result x w with
      | .ok a => after (f a) (after x w)
      | .error _ => after x w := by
  simp only [result, after, ExceptT.run_bind, StateT.run_bind]
  rcases x.run.run w with ⟨_ | a, w'⟩ <;> rfl

theorem after_bind_of_ok {x : Action α} {w : World} {a : α} (h : result x w = .ok a)
    (f : α → Action β) : after (x >>= f) w = after (f a) (after x w) := by
  rw [after_bind, h]

theorem after_bind_of_error {x : Action α} {w : World} {e : Stop} (h : result x w = .error e)
    (f : α → Action β) : after (x >>= f) w = after x w := by
  rw [after_bind, h]

theorem after_tryCatch (x : Action α) (f : Stop → Action α) (w : World) :
    after (tryCatch x f) w =
      match result x w with
      | .ok _ => after x w
      | .error e => after (f e) (after x w) := by
  simp only [result, after, ExceptT.run_tryCatch, StateT.run_bind]
  rcases x.run.run w with ⟨_ | a, w'⟩ <;> rfl

/-! ## Relations that an action keeps -/

/-- An action leads from each world to a related one. -/
def Keeps (R : World → World → Prop) (x : Action α) : Prop := ∀ w, R w (after x w)

section Keeps

variable {R S : World → World → Prop} {x : Action α} {f : α → Action β}

theorem Keeps.mono (h : Keeps R x) (hle : ∀ {w w'}, R w w' → S w w') : Keeps S x :=
  fun w => hle (h w)

theorem Keeps.ite {c : Prop} [Decidable c] {y : Action α} (hx : Keeps R x) (hy : Keeps R y) :
    Keeps R (if c then x else y) := by
  split
  · exact hx
  · exact hy

variable [IsPreorder World R]

theorem Keeps.pure (a : α) : Keeps R (pure a : Action α) := fun w => refl_of R w

theorem Keeps.throw (e : Stop) : Keeps R (throw e : Action α) := fun w => refl_of R w

theorem Keeps.bind (hx : Keeps R x) (hf : ∀ a, Keeps R (f a)) : Keeps R (x >>= f) := by
  intro w
  rw [after_bind]
  cases result x w with
  | ok a => exact trans_of R (hx w) (hf a (after x w))
  | error _ => exact hx w

/-- Goes on after something that is done on a condition. -/
theorem Keeps.when {c : Prop} [Decidable c] (hx : Keeps R x) (hf : ∀ a, Keeps R (f a)) (a : α) :
    Keeps R (if c then x >>= f else f a) :=
  (hx.bind hf).ite (hf a)

theorem Keeps.orStop {ε : Type} (g : ε → Stop) (y : Except ε α) : Keeps R (orStop g y) := by
  cases y with
  | ok a => exact Keeps.pure a
  | error e => exact Keeps.throw (g e)

theorem Keeps.mapM (hf : ∀ a, Keeps R (f a)) (xs : List α) : Keeps R (xs.mapM f) := by
  induction xs with
  | nil => exact Keeps.pure []
  | cons a rest ih =>
    rw [List.mapM_cons]
    exact (hf a).bind fun b => ih.bind fun bs => Keeps.pure (b :: bs)

theorem Keeps.forM {g : α → Action PUnit} (hg : ∀ a, Keeps R (g a)) (xs : List α) :
    Keeps R (xs.forM g) := by
  induction xs with
  | nil => exact Keeps.pure _
  | cons a rest ih => exact (hg a).bind fun _ => ih

theorem Keeps.foldlM {g : β → α → Action β} (hg : ∀ b a, Keeps R (g b a)) (xs : List α) (b : β) :
    Keeps R (xs.foldlM g b) := by
  induction xs generalizing b with
  | nil => exact Keeps.pure b
  | cons a rest ih =>
    rw [List.foldlM_cons]
    exact (hg b a).bind ih

end Keeps

/-! ## Reporting -/

structure SameFiles (w w' : World) : Prop where
  home : w'.home = w.home
  files : w'.files = w.files

instance : IsPreorder World SameFiles where
  refl _ := ⟨rfl, rfl⟩
  trans _ _ _ h h' := ⟨h'.home.trans h.home, h'.files.trans h.files⟩

theorem sameFiles_say (s : String) : Keeps SameFiles (say s) := fun _ => ⟨rfl, rfl⟩

theorem sameFiles_tell (xs : List String) : Keeps SameFiles (tell xs) :=
  Keeps.forM sameFiles_say xs

@[simp]
theorem result_say (s : String) (w : World) : result (say s) w = .ok ⟨⟩ := rfl

@[simp]
theorem result_tell (xs : List String) (w : World) : result (tell xs) w = .ok ⟨⟩ := by
  induction xs generalizing w with
  | nil => rfl
  | cons s rest ih =>
    show result (say s >>= fun _ => tell rest) w = _
    rw [result_bind, result_say, ok_bind, ih]

/-! ## Reading a file -/

theorem after_bytesAt (path : String) (w : World) : after (bytesAt path) w = w := by
  rw [bytesAt, after_bind]
  simp only [result_get, after_get]
  split <;> rfl

theorem SameFiles.isFolder_eq {w w' : World} (h : SameFiles w w') (path : String) :
    w'.isFolder path = w.isFolder path := by
  rw [World.isFolder, World.isFolder, h.home, h.files]

/-- What a file holds depends on the files alone. -/
theorem SameFiles.result_bytesAt {w w' : World} (h : SameFiles w w') (path : String) :
    result (bytesAt path) w' = result (bytesAt path) w := by
  rw [bytesAt, result_bind, result_bind]
  simp only [result_get, after_get, ok_bind, h.files, h.isFolder_eq]
  split <;> rfl

end DesignAudit.Run
