import DesignAudit.Encoding.Utf16
import DesignAudit.Text.LineEnd

/-!
# The text of a file

A file that begins with a byte-order mark of UTF-16 is read as UTF-16, any other file as UTF-8. In
either case all lines end with a single line feed afterwards.
-/

namespace DesignAudit.Encoding

/-- How the text of a file is written in bytes. -/
inductive Scheme where
  | utf8
  /-- UTF-8 after a byte-order mark. -/
  | utf8Marked
  /-- UTF-16 after a byte-order mark. -/
  | utf16Marked (o : ByteOrder)
  /-- UTF-16 without a mark. -/
  | utf16 (o : ByteOrder)
  /-- One byte for each of the first 256 characters. -/
  | latin1
  deriving DecidableEq, Repr

/-- The bytes of a text. -/
def encode : Scheme → List Char → List UInt8
  | .utf8, t => toUtf8 t
  | .utf8Marked, t => toUtf8 (Char.ofNat 0xFEFF :: t)
  | .utf16Marked o, t => mark o ++ toUtf16 o t
  | .utf16 o, t => toUtf16 o t
  | .latin1, t => t.map fun c => byte c.toNat

def characters (bytes : List UInt8) : List Char :=
  match markedOrder? bytes with
  | some o => ofUtf16 o (bytes.drop 2)
  | none => ofUtf8 bytes

def decode (bytes : List UInt8) : List Char := Text.unifyLineEnds (characters bytes)

/-- What is reported about the reading of a file. -/
def readNote (bytes : List UInt8) : String :=
  if (markedOrder? bytes).isSome then "Successfully read file with utf-16 BOM detection"
  else "Successfully read file with utf-8 encoding"

end DesignAudit.Encoding
