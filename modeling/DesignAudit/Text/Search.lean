/-!
# Finding, counting, cutting and replacing parts of a text

All of these look for one fixed text inside another, from left to right. Texts are lists of
characters, so that every function here is a recursion on the text that is searched.
-/

namespace DesignAudit.Text

/-- Whether `part` occurs in the text. -/
def hasPart (part : List Char) : List Char → Bool
  | [] => part.isEmpty
  | c :: rest => part.isPrefixOf (c :: rest) || hasPart part rest

/-- The number of occurrences of `part` found from left to right without overlap, after `skip`
characters that belong to the occurrence found last, added to `found`. -/
def countFrom (part : List Char) : Nat → Nat → List Char → Nat
  | _, found, [] => found
  | skip + 1, found, _ :: rest => countFrom part skip found rest
  | 0, found, c :: rest =>
    if part.isPrefixOf (c :: rest) then countFrom part (part.length - 1) (found + 1) rest
    else countFrom part 0 found rest

/-- The number of occurrences of a part that is not empty, without overlap. -/
def countParts (part text : List Char) : Nat := countFrom part 0 0 text

/-- Replaces each occurrence of `part` by `new`, after `skip` characters that belong to the
occurrence replaced last; `done` is what has been written so far, in reverse. -/
def replaceFrom (part new : List Char) : Nat → List Char → List Char → List Char
  | _, done, [] => done.reverse
  | skip + 1, done, _ :: rest => replaceFrom part new skip done rest
  | 0, done, c :: rest =>
    if part.isPrefixOf (c :: rest) then
      replaceFrom part new (part.length - 1) (new.reverse ++ done) rest
    else replaceFrom part new 0 (c :: done) rest

/-- Replaces each occurrence of a part that is not empty, from left to right without overlap. -/
def replaceParts (part new text : List Char) : List Char := replaceFrom part new 0 [] text

/-- Cuts a text at each occurrence of `sep`; the pieces found so far are complete, `piece` holds
the characters of the current one in reverse. -/
def cutFrom (sep : List Char) : Nat → List Char → List Char → List (List Char)
  | _, piece, [] => [piece.reverse]
  | skip + 1, piece, _ :: rest => cutFrom sep skip piece rest
  | 0, piece, c :: rest =>
    if sep.isPrefixOf (c :: rest) then piece.reverse :: cutFrom sep (sep.length - 1) [] rest
    else cutFrom sep 0 (c :: piece) rest

/-- The pieces of a text between the occurrences of a separator that is not empty. -/
def cut (sep text : List Char) : List (List Char) := cutFrom sep 0 [] text

/-- The position of the first occurrence of `part`. -/
def position? (part : List Char) : List Char → Option Nat
  | [] => if part.isEmpty then some 0 else none
  | c :: rest =>
    if part.isPrefixOf (c :: rest) then some 0 else (position? part rest).map (· + 1)

def has (part text : String) : Bool := hasPart part.toList text.toList

def beginsWith (part text : String) : Bool := part.toList.isPrefixOf text.toList

def endsWith (part text : String) : Bool := part.toList.isSuffixOf text.toList

/-- The text with each occurrence of `part` replaced. -/
def replace (part new text : String) : String :=
  String.ofList (replaceParts part.toList new.toList text.toList)

/-- The pieces of the text between the occurrences of `sep`. -/
def cutAt (sep text : String) : List String :=
  (cut sep.toList text.toList).map String.ofList

/-- What stands before and after the first occurrence of `sep`. -/
def cutOnce? (sep text : String) : Option (String × String) :=
  (position? sep.toList text.toList).map fun i =>
    (String.ofList (text.toList.take i), String.ofList (text.toList.drop (i + sep.toList.length)))

/-- The first `n` characters. -/
def keep (n : Nat) (text : String) : String := String.ofList (text.toList.take n)

/-- All but the first `n` characters. -/
def skip (n : Nat) (text : String) : String := String.ofList (text.toList.drop n)

/-- All but the last `n` characters. -/
def skipLast (n : Nat) (text : String) : String :=
  String.ofList (text.toList.take (text.toList.length - n))

/-- The pieces one after the other, with `sep` between them. -/
def join (sep : String) : List String → String
  | [] => ""
  | [s] => s
  | s :: rest => s ++ sep ++ join sep rest

def lines (pieces : List String) : String := join "\n" pieces

/-- The distinct members of a list, each at its first place. -/
def distinct (xs : List String) : List String :=
  xs.foldl (fun seen x => if seen.contains x then seen else seen ++ [x]) []

end DesignAudit.Text
