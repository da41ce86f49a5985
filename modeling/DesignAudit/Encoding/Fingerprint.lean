/-!
# Fingerprints

The MD5 fingerprint of bytes. The message is filled up to a multiple of 64 bytes, its length in bits
at the end, and each block of sixteen words is mixed into a state of four words in 64 rounds.
-/

namespace DesignAudit.Encoding

/-- The state of the fingerprint. -/
structure Digest where
  a : UInt32
  b : UInt32
  c : UInt32
  d : UInt32
  deriving DecidableEq, Repr

/-- The state at the start. -/
def Digest.initial : Digest := ⟨0x67452301, 0xefcdab89, 0x98badcfe, 0x10325476⟩

def roundConstants : List UInt32 :=
  [0xd76aa478, 0xe8c7b756, 0x242070db, 0xc1bdceee, 0xf57c0faf, 0x4787c62a, 0xa8304613, 0xfd469501,
   0x698098d8, 0x8b44f7af, 0xffff5bb1, 0x895cd7be, 0x6b901122, 0xfd987193, 0xa679438e, 0x49b40821,
   0xf61e2562, 0xc040b340, 0x265e5a51, 0xe9b6c7aa, 0xd62f105d, 0x02441453, 0xd8a1e681, 0xe7d3fbc8,
   0x21e1cde6, 0xc33707d6, 0xf4d50d87, 0x455a14ed, 0xa9e3e905, 0xfcefa3f8, 0x676f02d9, 0x8d2a4c8a,
   0xfffa3942, 0x8771f681, 0x6d9d6122, 0xfde5380c, 0xa4beea44, 0x4bdecfa9, 0xf6bb4b60, 0xbebfbc70,
   0x289b7ec6, 0xeaa127fa, 0xd4ef3085, 0x04881d05, 0xd9d4d039, 0xe6db99e5, 0x1fa27cf8, 0xc4ac5665,
   0xf4292244, 0x432aff97, 0xab9423a7, 0xfc93a039, 0x655b59c3, 0x8f0ccc92, 0xffeff47d, 0x85845dd1,
   0x6fa87e4f, 0xfe2ce6e0, 0xa3014314, 0x4e0811a1, 0xf7537e82, 0xbd3af235, 0x2ad7d2bb, 0xeb86d391]

/-- The rotations of the four groups of rounds. -/
def rotations : List (List UInt32) :=
  [[7, 12, 17, 22], [5, 9, 14, 20], [4, 11, 16, 23], [6, 10, 15, 21]]

/-- One round: which group it belongs to, which word of the block it takes, its constant and its
rotation. -/
structure Round where
  group : Nat
  word : Nat
  constant : UInt32
  rotation : UInt32

/-- The word of the block that a round takes. -/
def wordOf (group i : Nat) : Nat :=
  match group with
  | 0 => i
  | 1 => (5 * i + 1) % 16
  | 2 => (3 * i + 5) % 16
  | _ => (7 * i) % 16

def rounds : List Round :=
  roundConstants.zipIdx.map fun (constant, i) =>
    let group := i / 16
    { group, word := wordOf group i, constant
      rotation := ((rotations.getD group []).getD (i % 4) 0) }

/-- How the three words besides the first are mixed in a group of rounds. -/
def mixed (group : Nat) (s : Digest) : UInt32 :=
  match group with
  | 0 => (s.b &&& s.c) ||| (~~~s.b &&& s.d)
  | 1 => (s.d &&& s.b) ||| (~~~s.d &&& s.c)
  | 2 => s.b ^^^ s.c ^^^ s.d
  | _ => s.c ^^^ (s.b ||| ~~~s.d)

/-- Turns the bits of a word to the left. -/
def turned (w n : UInt32) : UInt32 := (w <<< n) ||| (w >>> (32 - n))

def Digest.round (block : Array UInt32) (s : Digest) (r : Round) : Digest :=
  let sum := mixed r.group s + s.a + r.constant + block.getD r.word 0
  ⟨s.d, s.b + turned sum r.rotation, s.b, s.c⟩

def Digest.absorb (s : Digest) (block : Array UInt32) : Digest :=
  let t := rounds.foldl (Digest.round block) s
  ⟨s.a + t.a, s.b + t.b, s.c + t.c, s.d + t.d⟩

/-- The bytes of a number, lowest first. -/
def lowBytes : Nat → Nat → List UInt8
  | 0, _ => []
  | count + 1, n => UInt8.ofNat (n % 256) :: lowBytes count (n / 256)

/-- The message filled up to whole blocks. -/
def padded (message : List UInt8) : List UInt8 :=
  let n := message.length
  message ++ 0x80 :: (List.replicate ((119 - n % 64) % 64) 0 ++ lowBytes 8 (8 * n))

/-- The words of bytes, four bytes each with the lowest first, after those found so far. -/
def wordsFrom : List UInt32 → List UInt8 → List UInt32
  | done, a :: b :: c :: d :: rest =>
    wordsFrom ((a.toUInt32 ||| (b.toUInt32 <<< 8) ||| (c.toUInt32 <<< 16) |||
      (d.toUInt32 <<< 24)) :: done) rest
  | done, _ => done.reverse

/-- Mixes all words into the state, sixteen at a time; the fuel is at least the number of blocks. -/
def Digest.absorbAll : Nat → Digest → List UInt32 → Digest
  | 0, s, _ => s
  | fuel + 1, s, ws =>
    if ws.isEmpty then s else absorbAll fuel (s.absorb (ws.take 16).toArray) (ws.drop 16)

def Digest.bytes (s : Digest) : List UInt8 :=
  [s.a, s.b, s.c, s.d].flatMap fun w => lowBytes 4 w.toNat

def hexByte (b : UInt8) : List Char := [Nat.digitChar (b.toNat / 16), Nat.digitChar (b.toNat % 16)]

/-- The fingerprint of a message, in hexadecimal digits. -/
def fingerprint (message : List UInt8) : String :=
  let ws := wordsFrom [] (padded message)
  String.ofList ((Digest.absorbAll (ws.length / 16) .initial ws).bytes.flatMap hexByte)

end DesignAudit.Encoding
