import DesignAudit.Fault

/-!
# Reading a document from its characters

A document without a declaration of its encoding is read character by character. The statements here
give the tree of such a document from the list of its characters, so that a written document can be
followed through the reader without decoding its text again at every step.
-/

namespace DesignAudit.Markup

/-- An element on the first line, without text. -/
def plain (tag : String) (attributes : List (String × String)) (children : List Node) : Node :=
  .mk .element tag attributes none 1 children

/-- An element for a calculation. -/
def calculationOf (text : String) : Node := .mk .element "Calculation" [] (some text) 1 []

/-- The characters of a text that is written in two parts. -/
theorem toList_append_of {s t : String} {cs ds : List Char} (hs : s.toList = cs)
    (ht : t.toList = ds) : (s ++ t).toList = cs ++ ds := by
  rw [String.toList_append, hs, ht]

theorem toList_two (cs ds : List Char) :
    (String.ofList cs ++ String.ofList ds).toList = cs ++ ds :=
  toList_append_of String.toList_ofList String.toList_ofList

theorem toList_three (cs ds es : List Char) :
    (String.ofList cs ++ String.ofList ds ++ String.ofList es).toList = cs ++ ds ++ es :=
  toList_append_of (toList_two cs ds) String.toList_ofList

/-- A text is known by its characters. -/
theorem ofList_eq_of_toList {s : String} {cs ds : List Char} (hs : s.toList = ds) (h : cs = ds) :
    String.ofList cs = s := by
  rw [h, ← hs, String.ofList_toList]

/-- The tree of a document whose characters are known and which declares no encoding. -/
theorem read_eq_of_toList {s : String} {cs : List Char} (hs : s.toList = cs) (hne : cs ≠ [])
    (hpairs : pairedOrder? cs = none) (hdeclared : declaredEncoding? cs = none) :
    read s =
      let fuel := cs.length + 1
      let start := skipProlog fuel { size := cs.length, line := 1, rest := dropMark cs }
      match start.rest with
      | '<' :: rest => .ok (Reading.content fuel (Reading.startTag { start with rest })).finish
      | _ => .ok none := by
  subst hs
  have hempty : s.isEmpty = false := by
    rw [Bool.eq_false_iff]
    intro h
    exact hne (by simpa using h)
  simp only [read, hempty, decodeDeclared, hpairs, hdeclared]
  rfl

theorem openDocument_of_read {raw : String} {n : Node} (h : read raw = .ok (some n))
    (request : String) : openDocument request raw = .ok (Site.root n) := by
  rw [openDocument, h]

/-- Nothing is around the root of a document. -/
theorem above_of_openDocument {request raw : String} {root : Site}
    (h : openDocument request raw = .ok root) : root.above = [] := by
  rw [openDocument] at h
  split at h
  · cases h
  · cases h
  · obtain rfl := Except.ok.inj h
    rfl

end DesignAudit.Markup
