import DesignAudit.Text.Category

/-!
# Pictographs become plus signs

Names in a design report may contain emoji, which the report's consumers spell in different ways.
Each pictograph, with everything that joins or varies it, is replaced by one plus sign.

A character is a pictograph on its own by its category and code point; whatever precedes a joiner or
a variation selector is one too, and so are a pair of flag letters and a key that is followed by the
key-cap mark. The general categories are a parameter of the scan, so that what it guarantees holds
for every version of the character database.
-/

namespace DesignAudit.Normal

open Text

/-- The code-point ranges in which a symbol or an unassigned code point is a pictograph. -/
def pictographRanges : Ranges :=
  [(0x1F300, 0x1F9FF), (0x1F000, 0x1F2FF), (0x1FA00, 0x1FAFF), (0x2600, 0x27BF), (0x2300, 0x23FF),
   (0x2B00, 0x2BFF), (0x1F1E6, 0x1F1FF), (0x200D, 0x200D), (0xFE0F, 0xFE0F), (0x1F3FB, 0x1F3FF),
   (0xE0020, 0xE007F), (0x2000, 0x206F), (0x20D0, 0x20FF), (0x3000, 0x303F), (0xFE00, 0xFE0F),
   (0x1F000, 0x1FFFF), (0xE0000, 0xE01EF)]

/-- Pictographs that are listed one by one. They count only where the category does not decide. -/
def listedPictographs : List Char :=
  "©®™℗⚠♻☠☢☣⚡☎☏✉✈🎯🎪🎨🎬🎤🎧🎼🎵🎶🎹🎻🎺🎷🎸🎮🃏🎴🀄🎲🎰🎳".toList

/-- Every character from the watch symbol onwards is a pictograph where the category does not
decide. -/
def firstPictographCode : Nat := 0x231A

/-- Whether a character is a pictograph on its own. -/
def standsAlone (category : Char → Category) (c : Char) : Bool :=
  if category c != .remaining then pictographRanges.has c
  else Nat.blt 127 c.toNat && (Nat.ble firstPictographCode c.toNat || listedPictographs.contains c)

/-- The variation selectors and the zero-width joiner. -/
def isJoiner (c : Char) : Bool :=
  c.toNat == 0xFE0F || c.toNat == 0xFE0E || c.toNat == 0x200D

/-- The plane-one blocks of pictographs. -/
def isPlaneOne (c : Char) : Bool := Nat.ble 0x1F000 c.toNat && Nat.ble c.toNat 0x1FFFF

/-- The regional indicators, two of which make a flag. -/
def isFlagLetter (c : Char) : Bool := Nat.ble 0x1F1E6 c.toNat && Nat.ble c.toNat 0x1F1FF

/-- The characters that a key-cap mark can follow. -/
def isKey (c : Char) : Bool := c.isDigit || c == '*' || c == '#'

/-- After a joiner, at most this many characters are taken into the sequence. -/
def joinedLimit : Nat := 8

/-- The number of characters that make one pictograph, the first being `c` and `rest` what follows
it; zero when there is none. -/
def pictographLength (category : Char → Category) (c : Char) (rest : List Char) : Nat :=
  let alone := if standsAlone category c then 1 else 0
  match rest with
  | [] => alone
  | next :: more =>
    if isJoiner next then
      2 + ((more.take joinedLimit).takeWhile fun d => isJoiner d || isPlaneOne d).length
    else if isFlagLetter c && isFlagLetter next then 2
    else if isKey c && next.toNat == 0x20E3 then 2
    else alone

/-- Replaces the pictographs of a text, after `skip` characters of the one found last; `done` is
what has been written so far, in reverse. -/
def plussedFrom (category : Char → Category) : Nat → List Char → List Char → List Char
  | _, done, [] => done.reverse
  | skip + 1, done, _ :: rest => plussedFrom category skip done rest
  | 0, done, c :: rest =>
    match pictographLength category c rest with
    | 0 => plussedFrom category 0 (c :: done) rest
    | n + 1 => plussedFrom category n ('+' :: done) rest

/-- Replaces each pictograph of a text by a plus sign. -/
def scanned (category : Char → Category) (text : List Char) : List Char :=
  plussedFrom category 0 [] text

/-- The number of pictographs in a text, after `skip` characters of the one found last, added to
`found`. -/
def pictographsFrom (category : Char → Category) : Nat → Nat → List Char → Nat
  | _, found, [] => found
  | skip + 1, found, _ :: rest => pictographsFrom category skip found rest
  | 0, found, c :: rest =>
    match pictographLength category c rest with
    | 0 => pictographsFrom category 0 found rest
    | n + 1 => pictographsFrom category n (found + 1) rest

def pictographCount (category : Char → Category) (text : List Char) : Nat :=
  pictographsFrom category 0 0 text

def isBeyondBasic (c : Char) : Bool := Nat.ble 0x10000 c.toNat

/-- A run of characters beyond the basic plane, given in reverse: a plus sign when a pictograph is
in it, and the run itself otherwise. The result is in reverse as well. -/
def sweptRun (run : List Char) : List Char := if run.any isPlaneOne then ['+'] else run

/-- Replaces each run of characters beyond the basic plane that has a pictograph in it; `run` holds
the current run and `done` what has been written before it, both in reverse. -/
def sweptFrom : List Char → List Char → List Char → List Char
  | run, done, [] => (sweptRun run ++ done).reverse
  | run, done, c :: rest =>
    if isBeyondBasic c then sweptFrom (c :: run) done rest
    else sweptFrom [] (c :: (sweptRun run ++ done)) rest

/-- The last pass over the scanned text. -/
def swept (text : List Char) : List Char := sweptFrom [] [] text

def withoutPictographs (category : Char → Category) (text : List Char) : List Char :=
  swept (scanned category text)

/-- What a debugging run notes about the replacement. -/
def replacedNote (n : Nat) : String := s!"[DEBUG] Replaced {n} emoji sequences with +"

end DesignAudit.Normal
