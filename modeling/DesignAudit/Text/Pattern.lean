import DesignAudit.Text.Case
import DesignAudit.Text.Letter

/-!
# Patterns

A pattern describes the texts a search looks for. Matching tries the ways a pattern can match in a
fixed order of preference: the left alternative before the right one, a greedy repetition from the
longest run down, a reluctant one from the shortest run up. What follows a pattern is given as a
continuation, so the first way that lets all the rest succeed is the one taken.

Repetitions range over a class of single characters, which is all that the searches of this library
need, and makes every repetition a recursion on the text.
-/

namespace DesignAudit.Text

/-- A captured text, given by the text to come where it begins and the text to come after it. -/
structure Capture where
  start : List Char
  stop : List Char

def Capture.text (c : Capture) : List Char := c.start.take (c.start.length - c.stop.length)

/-- Where a match stands: the character just passed, the text to come, and the captured texts,
latest first. -/
structure Cursor where
  before : Option Char
  rest : List Char
  captured : List Capture := []

/-- A pattern over characters. -/
inductive Pattern where
  /-- The empty text. -/
  | nothing
  /-- One character of a class. -/
  | one (p : Char → Bool)
  /-- As many characters of a class as the rest allows. -/
  | many (p : Char → Bool)
  /-- As few characters of a class as the rest allows. -/
  | fewest (p : Char → Bool)
  /-- One pattern after another. -/
  | seq (a b : Pattern)
  /-- Either pattern, the first one preferred. -/
  | alt (a b : Pattern)
  /-- A pattern whose text is captured. -/
  | group (a : Pattern)
  /-- Between a word character and a character that is none. -/
  | wordEdge
  /-- At the beginning of the text or of a line. -/
  | lineStart
  /-- At the end of the text or of a line. -/
  | lineEnd

namespace Pattern

/-- Greedy repetition: the longest run first. -/
def runMany {β : Type} (p : Char → Bool) (k : Option Char → List Char → Option β) :
    Option Char → List Char → Option β
  | before, [] => k before []
  | before, c :: rest =>
    if p c then (runMany p k (some c) rest).or (k before (c :: rest)) else k before (c :: rest)

/-- Reluctant repetition: the shortest run first. -/
def runFewest {β : Type} (p : Char → Bool) (k : Option Char → List Char → Option β) :
    Option Char → List Char → Option β
  | before, [] => k before []
  | before, c :: rest =>
    (k before (c :: rest)).or (if p c then runFewest p k (some c) rest else none)

/-- Whether a position stands at the edge of a word. -/
def atWordEdge (before : Option Char) (rest : List Char) : Bool :=
  (before.any isWord) != (rest.head?.any isWord)

/-- Matches at a cursor, in order of preference, until `k` accepts the cursor reached. -/
def run {β : Type} : Pattern → Cursor → (Cursor → Option β) → Option β
  | nothing, cur, k => k cur
  | one p, cur, k =>
    match cur.rest with
    | [] => none
    | c :: rest => if p c then k { cur with before := some c, rest } else none
  | many p, cur, k =>
    runMany p (fun before rest => k { cur with before, rest }) cur.before cur.rest
  | fewest p, cur, k =>
    runFewest p (fun before rest => k { cur with before, rest }) cur.before cur.rest
  | seq a b, cur, k => a.run cur fun next => b.run next k
  | alt a b, cur, k => (a.run cur k).or (b.run cur k)
  | group a, cur, k =>
    a.run cur fun next => k { next with captured := ⟨cur.rest, next.rest⟩ :: next.captured }
  | wordEdge, cur, k => if atWordEdge cur.before cur.rest then k cur else none
  | lineStart, cur, k => if cur.before.all (· == '\n') then k cur else none
  | lineEnd, cur, k => if cur.rest.head?.all (· == '\n') then k cur else none

/-- One or more characters of a class, as many as the rest allows. -/
def oneOrMore (p : Char → Bool) : Pattern := seq (one p) (many p)

def chars : List Char → Pattern
  | [] => nothing
  | [c] => one (· == c)
  | c :: rest => seq (one (· == c)) (chars rest)

def text (s : String) : Pattern := chars s.toList

/-- The given characters, letters compared without regard to case. -/
def letters : List Char → Pattern
  | [] => nothing
  | [c] => one (sameLetter c)
  | c :: rest => seq (one (sameLetter c)) (letters rest)

/-- The given text, letters compared without regard to case. -/
def word (s : String) : Pattern := letters s.toList

/-- One pattern after the other, for a whole list. -/
def all : List Pattern → Pattern
  | [] => nothing
  | [a] => a
  | a :: rest => seq a (all rest)

/-- One of several patterns, the earlier ones preferred. -/
def oneOf : List Pattern → Pattern
  | [] => one fun _ => false
  | [a] => a
  | a :: rest => alt a (oneOf rest)

/-- A pattern or nothing, the pattern preferred. -/
def opt (a : Pattern) : Pattern := alt a nothing

/-- A match: how many characters it takes, and what it captured, in order. -/
structure Match where
  length : Nat
  groups : List (List Char)

def matchAt (p : Pattern) (before : Option Char) (rest : List Char) : Option Match :=
  p.run { before, rest } fun cur =>
    some ⟨rest.length - cur.rest.length, (cur.captured.map Capture.text).reverse⟩

/-- The first match in a text, looked for from left to right. -/
def searchFrom (p : Pattern) : Option Char → List Char → Option Match
  | before, [] => p.matchAt before []
  | before, c :: rest =>
    match p.matchAt before (c :: rest) with
    | some m => some m
    | none => searchFrom p (some c) rest

def search (p : Pattern) (text : List Char) : Option Match := p.searchFrom none text

/-- Whether a text holds a match. -/
def occursIn (p : Pattern) (text : List Char) : Bool := (p.search text).isSome

/-- The matches found from left to right without overlap, after `skip` characters that belong to
the match found last. A match takes at least one character. -/
def allFrom (p : Pattern) : Nat → Option Char → List Char → List Match
  | _, _, [] => []
  | skip + 1, _, c :: rest => allFrom p skip (some c) rest
  | 0, before, c :: rest =>
    match p.matchAt before (c :: rest) with
    | some m => m :: allFrom p (m.length - 1) (some c) rest
    | none => allFrom p 0 (some c) rest

/-- What each match in a text captured, from left to right. -/
def findAll (p : Pattern) (text : List Char) : List (List (List Char)) :=
  (p.allFrom 0 none text).map Match.groups

/-- The first text captured by each match. -/
def findFirst (p : Pattern) (text : List Char) : List (List Char) :=
  (p.findAll text).filterMap List.head?

/-- The first two texts captured by each match. -/
def findPairs (p : Pattern) (text : List Char) : List (List Char × List Char) :=
  (p.findAll text).filterMap fun
    | a :: b :: _ => some (a, b)
    | _ => none

/-- A text without the matches in it, after `skip` characters that belong to the match erased
last. -/
def eraseFrom (p : Pattern) : Nat → Option Char → List Char → List Char
  | _, _, [] => []
  | skip + 1, _, c :: rest => eraseFrom p skip (some c) rest
  | 0, before, c :: rest =>
    match p.matchAt before (c :: rest) with
    | some m => eraseFrom p (m.length - 1) (some c) rest
    | none => c :: eraseFrom p 0 (some c) rest

/-- A text without the matches in it. -/
def erase (p : Pattern) (text : List Char) : List Char := p.eraseFrom 0 none text

end Pattern

end DesignAudit.Text
