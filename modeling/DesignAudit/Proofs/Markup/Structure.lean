import DesignAudit.Markup.Reader

/-!
# The structure of a tree

The structure of a tree is what is left of it without attribute values, texts and line numbers: its
elements and remarks, how they lie in one another, and the names of their attributes. The reader
builds it by itself. What a piece of markup does to the open elements, values and texts put aside,
depends on these elements without values and texts only, and is called a `Change` here. A text run
makes no change (`bare_addRun`, `bare_addText`), and `run` is what a list of changes does to a
reading.
-/

namespace DesignAudit.Markup

/-! ## Without values and texts -/

def withoutValue (a : String × String) : String × String := (a.1, "")

namespace Node

mutual

/-- A node and all below it without attribute values, texts and line numbers. -/
def bare : Node → Node
  | .mk kind tag attributes _ _ children =>
    .mk kind tag (attributes.map withoutValue) none 0 (bareAll children)

/-- The nodes of a list without attribute values, texts and line numbers. -/
def bareAll : List Node → List Node
  | [] => []
  | n :: rest => n.bare :: bareAll rest

end

theorem bareAll_eq (nodes : List Node) : bareAll nodes = nodes.map bare := by
  induction nodes with
  | nil => rw [bareAll, List.map_nil]
  | cons n rest ih => rw [bareAll, ih, List.map_cons]

end Node

namespace OpenElement

/-- An open element without attribute values, texts and line numbers. -/
def bare (e : OpenElement) : OpenElement where
  tag := e.tag
  attributes := e.attributes.map withoutValue
  line := 0
  children := e.children.map Node.bare
  spacing := .unknown
  namespaces := e.namespaces

theorem bare_close (e : OpenElement) : e.close.bare = e.bare.close := by
  rw [close, Node.bare, Node.bareAll_eq, List.map_reverse]
  rfl

theorem bare_addChild (e : OpenElement) (n : Node) :
    (e.addChild n).bare = e.bare.addChild n.bare := rfl

theorem bare_addText (e : OpenElement) (cs : List Char) : (e.addText cs).bare = e.bare := by
  rw [addText]
  split <;> rfl

theorem bare_addRun (e : OpenElement) (always : Bool) (run rest : List Char) :
    (e.addRun always run rest).bare = e.bare := by
  rw [addRun]
  split
  · rfl
  · split
    · split
      · rfl
      · have htext := bare_addText e run
        dsimp only
        split
        · exact htext
        · exact htext
    · exact bare_addText e run

end OpenElement

namespace Reading

/-- A reading as far as the structure of the tree is concerned. -/
def bare (r : Reading) : Reading where
  size := 0
  line := 0
  rest := []
  stack := r.stack.map OpenElement.bare
  root := r.root.map Node.bare

theorem bare_place (r : Reading) (n : Node) : (r.place n).bare = r.bare.place n.bare := by
  obtain ⟨size, line, rest, stack, root⟩ := r
  cases stack with
  | nil => rfl
  | cons e outer => rfl

theorem bare_modify {f : OpenElement → OpenElement} (hf : ∀ e, (f e).bare = e.bare) (r : Reading) :
    (r.modify f).bare = r.bare := by
  obtain ⟨size, line, rest, stack, root⟩ := r
  cases stack with
  | nil => rfl
  | cons e outer => simp only [modify, bare, List.map_cons, hf e]

theorem bare_finish (r : Reading) : r.finish.map Node.bare = r.bare.finish := by
  obtain ⟨size, line, rest, stack, root⟩ := r
  cases root with
  | some n => rfl
  | none =>
    simp only [finish, bare, Option.map_none, List.foldl_map]
    refine (List.foldl_hom (Option.map Node.bare) fun inner e => ?_).symm
    cases inner with
    | none => simp [OpenElement.bare_close]
    | some n => simp [OpenElement.bare_close, OpenElement.bare_addChild]

end Reading

/-! ## The element that a start tag opens -/

/-- An attribute as written without its value, unless it declares a namespace. -/
def withoutPlainValue (a : List Char × List Char) : List Char × List Char :=
  (a.1, if (declaredPrefix? a.1).isSome then a.2 else [])

theorem withoutPlainValue_eq {name v w : List Char}
    (h : (declaredPrefix? name).isSome = true → v = w) :
    withoutPlainValue (name, v) = withoutPlainValue (name, w) := by
  by_cases hname : (declaredPrefix? name).isSome = true
  · rw [h hname]
  · simp [withoutPlainValue, hname]

theorem firstOfEach_map (attributes : List (String × String)) :
    (firstOfEach attributes).map withoutValue = firstOfEach (attributes.map withoutValue) := by
  have hlookup : ∀ (key : String) (kept : List (String × String)),
      ((kept.map withoutValue).lookup key).isSome = (kept.lookup key).isSome := by
    intro key kept
    induction kept with
    | nil => rfl
    | cons a kept ih =>
      rw [List.map_cons, List.lookup_cons, List.lookup_cons, withoutValue]
      dsimp only
      cases key == a.1 with
      | true => rfl
      | false => exact ih
  rw [firstOfEach, firstOfEach, List.foldl_map]
  refine (List.foldl_hom (List.map withoutValue) fun kept a => ?_).symm
  rw [hlookup, withoutValue]
  split
  · rfl
  · rw [List.map_append]
    rfl

/-- Which element is opened depends, values and texts put aside, on the names of the attributes and
on the namespaces that they declare. -/
theorem bare_openElement (outer : Option OpenElement) (name : List Char)
    (written : List (List Char × List Char)) (line : Nat) :
    (openElement outer name written line).bare =
      (openElement (outer.map OpenElement.bare) name (written.map withoutPlainValue) 0).bare := by
  have hdeclared : (written.map withoutPlainValue).filterMap
        (fun a => (declaredPrefix? a.1).map (·, String.ofList a.2)) =
      written.filterMap fun a => (declaredPrefix? a.1).map (·, String.ofList a.2) := by
    rw [List.filterMap_map]
    congr 1
    funext a
    simp only [Function.comp_apply, withoutPlainValue]
    split
    · rfl
    · rename_i hplain
      rw [Option.not_isSome_iff_eq_none] at hplain
      rw [hplain]
      rfl
  have houter : ((outer.map OpenElement.bare).map OpenElement.namespaces).getD [] =
      (outer.map OpenElement.namespaces).getD [] := by
    cases outer with
    | none => rfl
    | some e => rfl
  simp only [openElement, hdeclared, houter, OpenElement.bare, List.map_nil, firstOfEach_map,
    List.map_filterMap, List.filterMap_map]
  congr 3
  funext a
  simp only [Function.comp_apply, withoutPlainValue]
  split
  · rfl
  · rfl

/-! ## Changes -/

/-- What a piece of markup does to the structure. -/
inductive Change where
  | opens (name : List Char) (written : List (List Char × List Char)) (closed : Bool)
  | closes
  | remarks (kind : Kind) (label : String)
  | keeps

/-- What a change makes of a reading without values and texts; nothing where an element would lie
too deep. -/
def Change.apply (r : Reading) : Change → Option Reading
  | opens name written closed =>
    if Reading.depthLimit < r.stack.length then none
    else
      let e := (openElement r.stack.head? name written 0).bare
      some (if closed then r.place e.close else { r with stack := e :: r.stack })
  | closes =>
    match r.stack with
    | e :: outer => some (Reading.place { r with stack := outer } e.close)
    | [] => some r
  | remarks kind label => some (r.place (.mk kind label [] none 0 []))
  | keeps => some r

/-- What a list of changes makes of a reading: the end of the root ends the document, and so does an
element that would lie too deep. -/
def Change.run : List Change → Reading → Reading
  | [], r => r
  | change :: rest, r =>
    if r.stack.isEmpty then r
    else
      match change.apply r with
      | some s => Change.run rest s
      | none => r

variable {change : Change} {r s : Reading}

theorem Change.run_of_stack (h : r.stack = []) (changes : List Change) :
    Change.run changes r = r := by
  cases changes with
  | nil => rfl
  | cons change rest => rw [run, h, List.isEmpty_nil, if_pos rfl]

theorem Change.run_cons_of_some (hstack : r.stack ≠ [])
    (h : change.apply r = some s) (rest : List Change) :
    Change.run (change :: rest) r = Change.run rest s := by
  rw [run, if_neg (by simpa using hstack), h]

theorem Change.run_cons_of_none (h : change.apply r = none)
    (rest : List Change) : Change.run (change :: rest) r = r := by
  rw [run, h]
  split
  · rfl
  · rfl

/-- An element has been begun, be it finished or not. -/
def Reading.Begun (r : Reading) : Prop := r.root.isSome = true ∨ r.stack ≠ []

theorem begun_place (r : Reading) (n : Node) : (r.place n).Begun := by
  obtain ⟨size, line, rest, stack, root⟩ := r
  cases stack with
  | nil => exact .inl rfl
  | cons e outer => exact .inr (List.cons_ne_nil _ _)

theorem begun_opens {name : List Char} {written : List (List Char × List Char)}
    {closed : Bool} (h : (Change.opens name written closed).apply r = some s) : s.Begun := by
  rw [Change.apply] at h
  split at h
  · cases h
  · obtain rfl := Option.some.inj h
    split
    · exact begun_place _ _
    · exact .inr (List.cons_ne_nil _ _)

/-- No change takes a begun element away. -/
theorem begun_apply (hr : r.Begun) (h : change.apply r = some s) : s.Begun := by
  cases change with
  | opens name written closed => exact begun_opens h
  | closes =>
    rw [Change.apply] at h
    split at h
    · obtain rfl := Option.some.inj h
      exact begun_place _ _
    · obtain rfl := Option.some.inj h
      exact hr
  | remarks kind label =>
    obtain rfl := Option.some.inj h
    exact begun_place _ _
  | keeps =>
    obtain rfl := Option.some.inj h
    exact hr

theorem begun_run {changes : List Change} (hr : r.Begun) :
    (Change.run changes r).Begun := by
  induction changes generalizing r with
  | nil => exact hr
  | cons change changes ih =>
    rw [Change.run]
    split
    · exact hr
    · split
      · rename_i s hs
        exact ih (begun_apply hr hs)
      · exact hr

theorem isSome_finish (hr : r.Begun) : r.finish.isSome = true := by
  obtain ⟨size, line, rest, stack, root⟩ := r
  cases root with
  | some n => rfl
  | none =>
    obtain ⟨e, outer, rfl⟩ := List.exists_cons_of_ne_nil (hr.resolve_left Bool.false_ne_true)
    have hkept : ∀ f : Option Node → OpenElement → Option Node,
        (∀ inner e, (f inner e).isSome = true) → ∀ (outer : List OpenElement) (inner : Option Node),
        inner.isSome = true → (outer.foldl f inner).isSome = true := by
      intro f hf outer
      induction outer with
      | nil => exact fun inner h => h
      | cons e outer ih => exact fun inner _ => ih _ (hf inner e)
    rw [Reading.finish, List.foldl_cons]
    exact hkept _ (fun _ _ => rfl) outer _ rfl

end DesignAudit.Markup
