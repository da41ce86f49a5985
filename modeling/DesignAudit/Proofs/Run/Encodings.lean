import DesignAudit.Proofs.Encoding.RoundTrip
import DesignAudit.Proofs.Markup.Reader
import DesignAudit.Proofs.Normal.Form
import DesignAudit.Proofs.Run.Cache
import DesignAudit.Proofs.Text.LineEnd

/-!
# Reports in different encodings

A report gives the same normal form and the same tree whether its file is written in UTF-8 or, after a
mark, in UTF-16 of either byte order. After the mark of UTF-8 it does not: the mark stays in the text,
where it counts as a pictograph, so that the normal form begins with a plus sign (`normalised_mark`)
and has no tree (`read_plus`). `encodings_agree` says both.
-/

namespace DesignAudit.Normal

open Text Encoding

/-! ## The mark in the text -/

theorem replaced_plus (text : List Char) : replaced ('+' :: text) = '+' :: replaced text := by
  have hkept : ¬ ['?', '?'] <+: '+' :: text := by
    rw [List.cons_prefix_cons]
    exact fun h => absurd h.1 (by decide)
  rw [replaced_eq, replaced_eq, replaceParts_cons hkept, List.map_cons,
    plainQuote_of_lookup (by decide), spaced_cons_of_not_mem isEdge_of_mem_edges (by decide)]

/-- The mark is one pictograph, with the joiners behind it. -/
theorem pictographLength_mark (text : List Char) :
    ∃ n, pictographLength category markChar text = n + 1 ∧
      ((∀ c ∈ text.head?, isJoiner c = false) → n = 0) := by
  have halone : standsAlone category markChar = true := by decide +kernel
  have hflag : isFlagLetter markChar = false := by decide
  have hkey : isKey markChar = false := by decide
  cases text with
  | nil => exact ⟨0, by simp [pictographLength, halone], fun _ => rfl⟩
  | cons next more =>
    simp only [pictographLength, halone, hflag, hkey, Bool.false_and, if_true]
    cases hjoiner : isJoiner next with
    | false => exact ⟨0, by simp, fun _ => rfl⟩
    | true =>
      refine ⟨_, by rw [if_pos rfl, Nat.add_comm 2], fun h => ?_⟩
      rw [h next rfl] at hjoiner
      cases hjoiner

/-- The normal form of a text with the mark begins with a plus sign. The rest is the normal form of the
text, unless this begins with a joiner. -/
theorem normalised_mark (text : List Char) :
    ∃ n, normalised (markChar :: text) = '+' :: normalised (text.drop n) ∧
      ((∀ c ∈ text.head?, isJoiner c = false) → n = 0) := by
  obtain ⟨n, hlength, hzero⟩ := pictographLength_mark text
  refine ⟨n, ?_, hzero⟩
  rw [normalised_eq_replaced, scanned_found hlength, replaced_plus, normalised_eq_replaced]

end DesignAudit.Normal

namespace DesignAudit.Markup

/-- Nothing is read from a text that begins with a plus sign. -/
theorem read_plus {s : String} {rest : List Char} (hs : s.toList = '+' :: rest) :
    read s = .ok none := by
  have hpairs : pairedOrder? ('+' :: rest) = none := by
    rcases rest with _ | ⟨b, _ | ⟨c, _ | ⟨d, more⟩⟩⟩ <;> simp [pairedOrder?]
  have hdeclared : declaredEncoding? ('+' :: rest) = none := by
    rw [declaredEncoding?, if_neg]
    simp
  rw [read_eq_of_toList hs (List.cons_ne_nil _ _) hpairs hdeclared]
  -- the plus sign is neither a blank nor the beginning of markup, so the prolog ends before it
  rfl

end DesignAudit.Markup

namespace DesignAudit.Run

open Encoding Markup DesignAudit.Normal Text
open Traversal

/-- What is read from a file that holds a text in an encoding. -/
def readFrom (o : Options) (path : String) (w : World) (e : Scheme) (text : List Char) :
    Except Stop (String × Option Node) :=
  result (readReport o path) (w.put path (.bytes (encode e text)))

theorem readFrom_eq (o : Options) (path : String) (w : World) (e : Scheme) (text : List Char) :
    readFrom o path w e text =
      ((tree (normalText (encode e text))).mapError .fault).map
        (Prod.mk (normalText (encode e text))) := by
  have hbytes : result (bytesAt path) (w.put path (.bytes (encode e text))) =
      .ok (encode e text) := by
    have hget : (w.put path (.bytes (encode e text))).files.get? path =
        some (.bytes (encode e text)) := by
      rw [World.put, Register.get?_insert, if_pos rfl]
    rw [bytesAt, result_bind, result_get, ok_bind, hget]
    rfl
  rw [readFrom, result_readReport, hbytes, ok_bind]
  cases tree (normalText (encode e text)) with
  | ok root => rfl
  | error f => rfl

theorem normalText_encode {e : Scheme} (he : e.IsTold) (text : List Char) :
    normalText (encode e text) = String.ofList (normalised (unifyLineEnds (e.heading ++ text))) := by
  rw [normalText, decode, characters_encode he]

theorem ofList_plus (rest : List Char) :
    String.ofList ('+' :: rest) = "+" ++ String.ofList rest := by
  rw [← String.toList_inj]
  simp

theorem readFrom_plus (o : Options) (path : String) (w : World) {e : Scheme} {text rest : List Char}
    (h : normalText (encode e text) = "+" ++ String.ofList rest) :
    readFrom o path w e text = .ok ("+" ++ String.ofList rest, none) := by
  have hplus : ("+" ++ String.ofList rest).toList = '+' :: rest := by
    rw [← ofList_plus, String.toList_ofList]
  rw [readFrom_eq, h, tree, read_plus hplus]
  rfl

/-- **The encoding of a report does not matter, but for the mark of UTF-8.** From a text in UTF-16 with
a mark, whatever the byte order, the same is read as from the text in UTF-8, the fault included if
nothing can be read. From a text in UTF-8 with a mark a normal form without a tree is read. It begins
with a plus sign, and the rest is what is read without the mark, so that it differs from that in any
case; only a text that begins with a joiner may lose that joiner to the plus sign. -/
theorem encodings_agree (o : Options) (path : String) (w : World) (text : List Char) :
    (∀ order, readFrom o path w (.utf16Marked order) text = readFrom o path w .utf8 text) ∧
    (∃ rest, readFrom o path w .utf8Marked text = .ok ("+" ++ rest, none)) ∧
    ((∀ c ∈ text.head?, isJoiner c = false) →
      readFrom o path w .utf8Marked text = .ok ("+" ++ normalText (encode .utf8 text), none) ∧
      readFrom o path w .utf8Marked text ≠ readFrom o path w .utf8 text) := by
  have hplain : ∀ e : Scheme, e.IsTold → e.heading = [] →
      normalText (encode e text) = String.ofList (normalised (unifyLineEnds text)) := by
    intro e he hheading
    rw [normalText_encode he, hheading, List.nil_append]
  have hutf8 := hplain .utf8 trivial rfl
  -- the normal form of the marked text, first for any text
  obtain ⟨n, hmark, hzero⟩ := normalised_mark (unifyLineEnds text)
  have hmarked : normalText (encode .utf8Marked text) =
      "+" ++ String.ofList (normalised ((unifyLineEnds text).drop n)) := by
    have hheading : Scheme.utf8Marked.heading ++ text = markChar :: text := rfl
    rw [normalText_encode (e := .utf8Marked) trivial, hheading, unifyLineEnds_cons (by decide),
      hmark, ofList_plus]
  have hread := readFrom_plus o path w hmarked
  refine ⟨fun order => ?_, ⟨_, hread⟩, fun hjoiner => ?_⟩
  · rw [readFrom_eq, readFrom_eq, hplain (.utf16Marked order) trivial rfl, hutf8]
  · -- the first character is no joiner after the line ends are unified, either
    have hfirst : ∀ c ∈ (unifyLineEnds text).head?, isJoiner c = false := by
      intro c hc
      rw [head?_unifyLineEnds] at hc
      obtain ⟨d, hd, rfl⟩ := Option.map_eq_some_iff.mp hc
      split
      · decide
      · exact hjoiner d hd
    rw [hzero hfirst, List.drop_zero, ← hutf8] at hread
    refine ⟨hread, fun hsame => ?_⟩
    rw [hread, readFrom_eq] at hsame
    cases htree : tree (normalText (encode .utf8 text)) with
    | ok root =>
      rw [htree] at hsame
      have htext := congrArg (fun p : String × Option Node => p.1.length) (Except.ok.inj hsame)
      simp at htext
    | error f =>
      rw [htree] at hsame
      cases hsame

/-- A report with a line end of two characters and a pictograph beyond the basic plane. -/
def smilingReport : List Char :=
  ['<', 'F', '>', '\r', '\n', Char.ofNat 0x1F600, '<', '/', 'F', '>']

/-- `smilingReport` is read from UTF-16 as from UTF-8, but behind the mark of UTF-8 it has no tree. -/
theorem smilingReport_read :
    (∀ c ∈ smilingReport.head?, isJoiner c = false) ∧
    readFrom {} "h/a.xml" { home := "h" } (.utf16Marked .bigEndian) smilingReport =
      readFrom {} "h/a.xml" { home := "h" } .utf8 smilingReport ∧
    readFrom {} "h/a.xml" { home := "h" } .utf8Marked smilingReport =
      .ok ("+<F>\n+</F>", none) := by
  have hjoiner : ∀ c ∈ smilingReport.head?, isJoiner c = false := by decide
  have htext : "+" ++ normalText (encode .utf8 smilingReport) = "+<F>\n+</F>" := by decide +kernel
  obtain ⟨hsame, -, hmarked⟩ := encodings_agree {} "h/a.xml" { home := "h" } smilingReport
  exact ⟨hjoiner, hsame .bigEndian, htext ▸ (hmarked hjoiner).1⟩

-- A variation selector at the beginning goes with the mark, so that the two texts agree.
example : normalised [markChar, Char.ofNat 0xFE0F] = normalised [Char.ofNat 0xFE0F] := by
  decide +kernel

end DesignAudit.Run
