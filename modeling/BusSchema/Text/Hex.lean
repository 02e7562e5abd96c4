import BusSchema.Text.Blank
import BusSchema.Text.Numeral

/-!
# Bytes in hexadecimal

Two digits make a byte, the high digit first.  Blanks and colons between digits are dropped
before anything else is looked at.

What is left is measured and cut in bytes of UTF-8, where a character may take up to four, and each
piece of two bytes is read as a numeral, which may have a sign.  So all characters have to be
digits before the first cut is made.
-/

namespace BusSchema

namespace Text

/-- The number of bytes that a text takes in UTF-8. -/
def byteSize (text : List Char) : Nat := total (text.map Char.utf8Size)

/-- Splits a number of bytes off a text, unless the cut is inside a character or behind the end. -/
def splitBytes? : Nat → List Char → Option (List Char × List Char)
  | 0, rest => some ([], rest)
  | _ + 1, [] => none
  | n + 1, c :: rest =>
    if c.utf8Size ≤ n + 1 then
      (splitBytes? (n + 1 - c.utf8Size) rest).map fun (piece, behind) => (c :: piece, behind)
    else none

end Text

/-- Why a text is no hexadecimal rendering of bytes. -/
inductive HexError
  /-- A character is no hexadecimal digit. -/
  | notADigit (c : Char)
  /-- The last byte lacks its second digit. -/
  | oddLength
  /-- The text was to be cut inside a character. -/
  | cutCharacter
  /-- A piece of two bytes is no numeral. -/
  | badByte (piece : String) (error : NumeralError)
deriving DecidableEq

namespace Hex

/-- The digits of a text, without the blanks and colons that set them apart. -/
def significant (text : List Char) : List Char :=
  text.filter fun c => !(Text.isBlank c) && c != ':'

/-- Reads a number of bytes, each from the next two bytes of a text. -/
def readBytes : Nat → List Char → Except HexError (List UInt8)
  | 0, _ => .ok []
  | count + 1, text =>
    match Text.splitBytes? 2 text with
    | none => .error .cutCharacter
    | some (piece, rest) =>
      match Numeral.read 16 256 piece with
      | .error e => .error (.badByte (String.ofList piece) e)
      | .ok n => (readBytes count rest).map (UInt8.ofNat n :: ·)

/-- Reads bytes; a character that is no digit is reported before an odd number of digits. -/
def decode (text : List Char) : Except HexError (List UInt8) :=
  let digits := significant text
  match digits.find? fun c => (Numeral.digitOf? 16 c).isNone with
  | some c => .error (.notADigit c)
  | none =>
    let size := Text.byteSize digits
    if size % 2 = 0 then readBytes (size / 2) digits else .error .oddLength

/-- The two digits of a byte. -/
def encodeByte (byte : UInt8) : List Char :=
  [Nat.digitChar (byte.toNat / 16), Nat.digitChar (byte.toNat % 16)]

/-- The bytes in lower-case digits. -/
def encode (bytes : List UInt8) : List Char := bytes.flatMap encodeByte

end Hex

end BusSchema
