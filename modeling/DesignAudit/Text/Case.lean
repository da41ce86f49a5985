import DesignAudit.Text.Ranges

/-!
# Lower case, and letters that differ only in case

`lower` is the full lower-case mapping of a text: every letter by itself, except that a capital
sigma at the end of a word becomes the final form, and the dotted capital I becomes two characters.
`sameLetter` is the comparison of two letters by their simple lower-case forms, where a few letters
with several lower-case forms are identified as well.
-/

namespace DesignAudit.Text

/-- A run of capitals, `step` apart, whose small letters all stand at one distance. -/
structure CaseRun where
  first : Nat
  last : Nat
  step : Nat
  shift : Int

/-- Capitals side by side. -/
def CaseRun.row (first last : Nat) (shift : Int) : CaseRun := ⟨first, last, 1, shift⟩

/-- Capitals that alternate with their small letters. -/
def CaseRun.pairs (first last : Nat) : CaseRun := ⟨first, last, 2, 1⟩

def CaseRun.one (letter : Nat) (shift : Int) : CaseRun := ⟨letter, letter, 1, shift⟩

/-- The capitals beyond ASCII. -/
def caseRuns : List CaseRun :=
  [.row 0xC0 0xD6 32, .row 0xD8 0xDE 32, .pairs 0x100 0x12E, .pairs 0x132 0x136,
   .pairs 0x139 0x147, .pairs 0x14A 0x176, .one 0x178 (-121), .pairs 0x179 0x17D, .one 0x181 210,
   .pairs 0x182 0x184, .one 0x186 206, .one 0x187 1, .row 0x189 0x18A 205, .one 0x18B 1,
   .one 0x18E 79, .one 0x18F 202, .one 0x190 203, .one 0x191 1, .one 0x193 205, .one 0x194 207,
   .one 0x196 211, .one 0x197 209, .one 0x198 1, .one 0x19C 211, .one 0x19D 213, .one 0x19F 214,
   .pairs 0x1A0 0x1A4, .one 0x1A6 218, .one 0x1A7 1, .one 0x1A9 218, .one 0x1AC 1, .one 0x1AE 218,
   .one 0x1AF 1, .row 0x1B1 0x1B2 217, .pairs 0x1B3 0x1B5, .one 0x1B7 219, .one 0x1B8 1,
   .one 0x1BC 1, .one 0x1C4 2, .one 0x1C5 1, .one 0x1C7 2, .one 0x1C8 1, .one 0x1CA 2,
   .pairs 0x1CB 0x1DB, .pairs 0x1DE 0x1EE, .one 0x1F1 2, .pairs 0x1F2 0x1F4, .one 0x1F6 (-97),
   .one 0x1F7 (-56), .pairs 0x1F8 0x21E, .one 0x220 (-130), .pairs 0x222 0x232, .one 0x23A 10795,
   .one 0x23B 1, .one 0x23D (-163), .one 0x23E 10792, .one 0x241 1, .one 0x243 (-195),
   .one 0x244 69, .one 0x245 71, .pairs 0x246 0x24E, .pairs 0x370 0x372, .one 0x376 1,
   .one 0x37F 116, .one 0x386 38, .row 0x388 0x38A 37, .one 0x38C 64, .row 0x38E 0x38F 63,
   .row 0x391 0x3A1 32, .row 0x3A3 0x3AB 32, .one 0x3CF 8, .pairs 0x3D8 0x3EE, .one 0x3F4 (-60),
   .one 0x3F7 1, .one 0x3F9 (-7), .one 0x3FA 1, .row 0x3FD 0x3FF (-130), .row 0x400 0x40F 80,
   .row 0x410 0x42F 32, .pairs 0x460 0x480, .pairs 0x48A 0x4BE, .one 0x4C0 15, .pairs 0x4C1 0x4CD,
   .pairs 0x4D0 0x52E, .row 0x531 0x556 48, .row 0x10A0 0x10C5 7264, .one 0x10C7 7264,
   .one 0x10CD 7264, .row 0x13A0 0x13EF 38864, .row 0x13F0 0x13F5 8, .row 0x1C90 0x1CBA (-3008),
   .row 0x1CBD 0x1CBF (-3008), .pairs 0x1E00 0x1E94, .one 0x1E9E (-7615), .pairs 0x1EA0 0x1EFE,
   .row 0x1F08 0x1F0F (-8), .row 0x1F18 0x1F1D (-8), .row 0x1F28 0x1F2F (-8),
   .row 0x1F38 0x1F3F (-8), .row 0x1F48 0x1F4D (-8), ⟨0x1F59, 0x1F5F, 2, -8⟩,
   .row 0x1F68 0x1F6F (-8), .row 0x1F88 0x1F8F (-8), .row 0x1F98 0x1F9F (-8),
   .row 0x1FA8 0x1FAF (-8), .row 0x1FB8 0x1FB9 (-8), .row 0x1FBA 0x1FBB (-74), .one 0x1FBC (-9),
   .row 0x1FC8 0x1FCB (-86), .one 0x1FCC (-9), .row 0x1FD8 0x1FD9 (-8), .row 0x1FDA 0x1FDB (-100),
   .row 0x1FE8 0x1FE9 (-8), .row 0x1FEA 0x1FEB (-112), .one 0x1FEC (-7), .row 0x1FF8 0x1FF9 (-128),
   .row 0x1FFA 0x1FFB (-126), .one 0x1FFC (-9), .one 0x2126 (-7517), .one 0x212A (-8383),
   .one 0x212B (-8262), .one 0x2132 28, .row 0x2160 0x216F 16, .one 0x2183 1,
   .row 0x24B6 0x24CF 26, .row 0x2C00 0x2C2F 48, .one 0x2C60 1, .one 0x2C62 (-10743),
   .one 0x2C63 (-3814), .one 0x2C64 (-10727), .pairs 0x2C67 0x2C6B, .one 0x2C6D (-10780),
   .one 0x2C6E (-10749), .one 0x2C6F (-10783), .one 0x2C70 (-10782), .one 0x2C72 1, .one 0x2C75 1,
   .row 0x2C7E 0x2C7F (-10815), .pairs 0x2C80 0x2CE2, .pairs 0x2CEB 0x2CED, .one 0x2CF2 1,
   .pairs 0xA640 0xA66C, .pairs 0xA680 0xA69A, .pairs 0xA722 0xA72E, .pairs 0xA732 0xA76E,
   .pairs 0xA779 0xA77B, .one 0xA77D (-35332), .pairs 0xA77E 0xA786, .one 0xA78B 1,
   .one 0xA78D (-42280), .pairs 0xA790 0xA792, .pairs 0xA796 0xA7A8, .one 0xA7AA (-42308),
   .one 0xA7AB (-42319), .one 0xA7AC (-42315), .one 0xA7AD (-42305), .one 0xA7AE (-42308),
   .one 0xA7B0 (-42258), .one 0xA7B1 (-42282), .one 0xA7B2 (-42261), .one 0xA7B3 928,
   .pairs 0xA7B4 0xA7C2, .one 0xA7C4 (-48), .one 0xA7C5 (-42307), .one 0xA7C6 (-35384),
   .pairs 0xA7C7 0xA7C9, .one 0xA7D0 1, .pairs 0xA7D6 0xA7D8, .one 0xA7F5 1, .row 0xFF21 0xFF3A 32,
   .row 0x10400 0x10427 40, .row 0x104B0 0x104D3 40, .row 0x10570 0x1057A 39,
   .row 0x1057C 0x1058A 39, .row 0x1058C 0x10592 39, .row 0x10594 0x10595 39,
   .row 0x10C80 0x10CB2 64, .row 0x118A0 0x118BF 32, .row 0x16E40 0x16E5F 32,
   .row 0x1E900 0x1E921 34]

/-- The character at a code point that a case mapping yields. -/
def charAt (n : Int) : Char := Char.ofNat n.toNat

/-- The small form of a single letter; the dotted capital I has the plain small i. -/
def lowerChar (c : Char) : Char :=
  if c.toNat < 0x80 then c.toLower
  else if c.toNat == 0x130 then 'i'
  else
    match caseRuns.find? fun r =>
      Nat.ble r.first c.toNat && Nat.ble c.toNat r.last && (c.toNat - r.first) % r.step == 0 with
    | some r => charAt (c.toNat + r.shift)
    | none => c

/-- Characters that are passed over when the end of a word is looked for. -/
def caseIgnorableRanges : Ranges :=
  .ofRuns 0 [
    39, 1, 6, 1, 11, 1, 35, 1, 1, 1, 71, 1, 4, 1, 1, 1, 4, 1, 2, 2, 503, 192, 4, 2, 4, 1, 9,
    2, 1, 1, 251, 7, 207, 1, 5, 1, 49, 45, 1, 1, 1, 2, 1, 2, 1, 1, 44, 1, 11, 6, 10, 11, 1, 1,
    35, 1, 10, 21, 16, 1, 101, 8, 1, 10, 1, 4, 33, 1, 1, 1, 30, 27, 91, 11, 58, 11, 4, 1, 2,
    1, 24, 24, 43, 3, 44, 1, 7, 2, 6, 8, 41, 58, 55, 1, 1, 1, 4, 8, 4, 1, 3, 7, 10, 2, 13, 1,
    15, 1, 58, 1, 4, 4, 8, 1, 20, 2, 26, 1, 2, 2, 57, 1, 4, 2, 4, 2, 2, 3, 3, 1, 30, 2, 3, 1,
    11, 2, 57, 1, 4, 5, 1, 2, 4, 1, 20, 2, 22, 6, 1, 1, 58, 1, 2, 1, 1, 4, 8, 1, 7, 2, 11, 2,
    30, 1, 61, 1, 12, 1, 50, 1, 3, 1, 55, 1, 1, 3, 5, 3, 1, 4, 7, 2, 11, 2, 29, 1, 58, 1, 2,
    1, 6, 1, 5, 2, 20, 2, 28, 2, 57, 2, 4, 4, 8, 1, 20, 2, 29, 1, 72, 1, 7, 3, 1, 1, 90, 1, 2,
    7, 11, 9, 98, 1, 2, 9, 9, 1, 1, 6, 74, 2, 27, 1, 1, 1, 1, 1, 55, 14, 1, 5, 1, 2, 5, 11, 1,
    36, 9, 1, 102, 4, 1, 6, 1, 2, 2, 2, 25, 2, 4, 3, 16, 4, 13, 1, 2, 2, 6, 1, 15, 1, 94, 1,
    608, 3, 946, 3, 29, 2, 30, 2, 30, 2, 64, 2, 1, 7, 8, 1, 2, 11, 3, 1, 5, 1, 45, 5, 51, 1,
    65, 2, 34, 1, 118, 3, 4, 2, 9, 1, 6, 3, 219, 2, 2, 1, 58, 1, 1, 7, 1, 1, 1, 1, 2, 8, 6,
    10, 2, 1, 39, 1, 8, 31, 49, 4, 48, 1, 1, 5, 1, 1, 5, 1, 40, 9, 12, 2, 32, 4, 2, 2, 1, 3,
    56, 1, 1, 2, 3, 1, 1, 3, 58, 8, 2, 2, 64, 6, 82, 3, 1, 13, 1, 7, 4, 1, 6, 1, 3, 2, 50, 63,
    13, 1, 34, 101, 445, 1, 1, 3, 11, 3, 13, 3, 13, 3, 13, 2, 12, 5, 8, 2, 10, 1, 2, 1, 2, 5,
    49, 5, 1, 10, 1, 1, 13, 1, 16, 13, 51, 33, 2955, 2, 113, 3, 125, 1, 15, 1, 96, 32, 47, 1,
    469, 1, 36, 4, 3, 5, 5, 1, 93, 6, 93, 3, 28438, 1, 1250, 6, 270, 1, 98, 4, 1, 10, 1, 1,
    28, 4, 80, 2, 14, 34, 78, 1, 23, 3, 103, 3, 3, 2, 8, 1, 3, 1, 4, 1, 25, 2, 5, 1, 151, 2,
    26, 18, 13, 1, 38, 8, 25, 11, 46, 3, 48, 1, 2, 4, 2, 2, 17, 1, 21, 2, 66, 6, 2, 2, 2, 2,
    12, 1, 8, 1, 35, 1, 11, 1, 51, 1, 1, 3, 2, 2, 5, 2, 1, 1, 27, 1, 14, 2, 5, 2, 1, 1, 100,
    5, 9, 3, 121, 1, 2, 1, 4, 1, 20272, 1, 147, 17, 573, 16, 3, 1, 12, 16, 34, 1, 2, 1, 169,
    1, 7, 1, 6, 1, 11, 1, 35, 1, 1, 1, 47, 1, 45, 2, 67, 1, 21, 3, 513, 1, 226, 1, 149, 5,
    1029, 6, 1, 42, 1, 9, 582, 3, 1, 2, 5, 4, 40, 3, 4, 1, 165, 2, 573, 4, 387, 2, 153, 11,
    49, 4, 123, 1, 54, 15, 41, 1, 2, 2, 10, 3, 49, 4, 2, 2, 2, 1, 4, 1, 10, 1, 50, 3, 36, 5,
    1, 8, 62, 1, 12, 2, 52, 9, 10, 4, 2, 1, 95, 3, 2, 1, 1, 2, 6, 1, 160, 1, 3, 8, 21, 2, 57,
    2, 3, 1, 37, 7, 3, 5, 195, 8, 2, 3, 1, 1, 23, 1, 84, 6, 1, 1, 4, 2, 1, 2, 238, 4, 6, 2, 1,
    2, 27, 2, 85, 8, 2, 1, 1, 2, 106, 1, 1, 1, 2, 6, 1, 1, 101, 3, 2, 4, 1, 5, 259, 9, 1, 2,
    256, 2, 1, 1, 4, 1, 144, 4, 2, 2, 4, 1, 32, 10, 40, 6, 2, 4, 8, 1, 9, 6, 2, 3, 46, 13, 1,
    2, 406, 7, 1, 6, 1, 1, 82, 22, 2, 7, 1, 2, 1, 2, 122, 6, 3, 1, 1, 2, 1, 7, 1, 1, 72, 2, 3,
    1, 1, 1, 347, 2, 5435, 9, 14007, 5, 59, 7, 9, 4, 1035, 1, 63, 17, 64, 2, 1, 2, 16395, 4,
    1, 7, 1, 2, 3230, 2, 1, 4, 4700, 46, 2, 23, 544, 3, 9, 16, 2, 7, 30, 4, 148, 3, 1979, 55,
    4, 50, 8, 1, 14, 1, 22, 5, 1, 15, 1360, 7, 1, 17, 2, 7, 1, 2, 1, 5, 261, 14, 368, 1, 61,
    4, 1504, 7, 109, 8, 2735, 5, 789505, 1, 30, 96, 128, 240]

/-- Letters with case that are not passed over when the end of a word is looked for. -/
def casedRanges : Ranges :=
  .ofRuns 0 [
    65, 26, 6, 26, 47, 1, 10, 1, 4, 1, 5, 23, 1, 31, 1, 195, 1, 4, 4, 208, 1, 27, 192, 4, 2,
    2, 3, 3, 1, 1, 6, 1, 1, 3, 1, 1, 1, 20, 1, 83, 1, 139, 8, 166, 1, 38, 9, 41, 2839, 38, 1,
    1, 5, 1, 2, 43, 2, 3, 672, 86, 2, 6, 2178, 9, 7, 43, 2, 3, 64, 44, 63, 13, 1, 34, 101,
    278, 2, 6, 2, 38, 2, 6, 2, 8, 1, 1, 1, 1, 1, 1, 1, 31, 2, 53, 1, 7, 1, 1, 3, 3, 1, 7, 3,
    4, 2, 6, 4, 13, 5, 3, 1, 7, 261, 1, 4, 1, 2, 10, 1, 1, 3, 5, 6, 1, 1, 1, 1, 1, 1, 4, 1, 6,
    4, 1, 2, 4, 5, 5, 4, 1, 17, 32, 3, 2, 817, 52, 1814, 124, 2, 103, 6, 4, 3, 2, 12, 38, 1,
    1, 5, 1, 30994, 46, 18, 28, 134, 78, 1, 23, 3, 4, 1, 59, 5, 2, 1, 1, 1, 5, 27, 2, 3, 1,
    821, 43, 5, 9, 7, 80, 20288, 7, 12, 5, 1033, 26, 6, 26, 1189, 80, 96, 36, 4, 36, 116, 11,
    1, 15, 1, 7, 1, 2, 1, 11, 1, 15, 1, 7, 1, 2, 1731, 51, 13, 51, 2989, 64, 21856, 64, 25984,
    85, 1, 71, 1, 2, 2, 1, 2, 2, 2, 4, 1, 12, 1, 1, 1, 7, 1, 65, 1, 4, 2, 8, 1, 7, 1, 28, 1,
    4, 1, 5, 1, 1, 3, 7, 1, 340, 2, 25, 1, 25, 1, 31, 1, 25, 1, 31, 1, 25, 1, 31, 1, 25, 1,
    31, 1, 25, 1, 8, 1844, 10, 1, 20, 2529, 68, 2028, 26, 6, 26, 6, 26]

/-- Whether the first character that is not passed over is a letter with case. -/
def meetsCased (cs : List Char) : Bool :=
  match cs.dropWhile caseIgnorableRanges.has with
  | c :: _ => casedRanges.has c
  | [] => false

/-- The lower-case form of a text, `before` being the characters already passed, nearest first. -/
def lowerFrom (before : List Char) : List Char → List Char
  | [] => []
  | c :: rest =>
    let small :=
      if c.toNat == 0x3A3 then
        [if meetsCased before && !meetsCased rest then Char.ofNat 0x3C2 else Char.ofNat 0x3C3]
      else if c.toNat == 0x130 then ['i', Char.ofNat 0x307]
      else [lowerChar c]
    small ++ lowerFrom (c :: before) rest

/-- The lower-case form of a text. -/
def lowerChars (cs : List Char) : List Char := lowerFrom [] cs

/-- The lower-case form of a text. -/
def lower (s : String) : String := String.ofList (lowerChars s.toList)

/-- Small letters that count as one letter although none is the other's small form. -/
def letterFamilies : List (List Nat) :=
  [[0x69, 0x131], [0x73, 0x17F], [0xB5, 0x3BC], [0x345, 0x3B9, 0x1FBE], [0x390, 0x1FD3],
   [0x3B0, 0x1FE3], [0x3B2, 0x3D0], [0x3B5, 0x3F5], [0x3B8, 0x3D1], [0x3BA, 0x3F0], [0x3C0, 0x3D6],
   [0x3C1, 0x3F1], [0x3C2, 0x3C3], [0x3C6, 0x3D5], [0x432, 0x1C80], [0x434, 0x1C81],
   [0x43E, 0x1C82], [0x441, 0x1C83], [0x442, 0x1C84, 0x1C85], [0x44A, 0x1C86], [0x463, 0x1C87],
   [0x1C88, 0xA64B], [0x1E61, 0x1E9B], [0xFB05, 0xFB06]]

/-- Two characters are the same letter when their small forms agree or are of one family. -/
def sameLetter (a b : Char) : Bool :=
  let x := lowerChar a
  let y := lowerChar b
  x == y || letterFamilies.any fun f => f.contains x.toNat && f.contains y.toNat

/-- The capital form of a character where it consists of ASCII letters, and the character itself
otherwise. This decides whether a text is a keyword when written in capitals. -/
def keywordUpper (c : Char) : List Char :=
  if c.toNat < 0x80 then [c.toUpper]
  else
    match c.toNat with
    | 0xDF => ['S', 'S']
    | 0x131 => ['I']
    | 0x17F => ['S']
    | 0xFB00 => ['F', 'F']
    | 0xFB01 => ['F', 'I']
    | 0xFB02 => ['F', 'L']
    | 0xFB03 => ['F', 'F', 'I']
    | 0xFB04 => ['F', 'F', 'L']
    | 0xFB05 => ['S', 'T']
    | 0xFB06 => ['S', 'T']
    | _ => [c]

end DesignAudit.Text
