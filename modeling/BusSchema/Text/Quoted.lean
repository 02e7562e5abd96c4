import BusSchema.Text.Glyphless

/-!
# Quoted text

Messages that show what a user typed put it between quotes and write control characters,
backslashes and the quote itself with a backslash.  Characters without a glyph of their own are
written by code point.
-/

namespace BusSchema

namespace Text

/-- The quote around a single character. -/
def singleQuote : Char := '\x27'

/-- The quote around a text. -/
def doubleQuote : Char := '\x22'

/-- The character that starts an escape. -/
def backslash : Char := '\x5c'

/-- The character by its code point, in lower-case hexadecimal without leading zeros. -/
def codePointEscape (c : Char) : List Char :=
  [backslash, 'u', '\x7b'] ++ Nat.toDigits 16 c.toNat ++ ['\x7d']

/-- A character as it stands between the given quotes. -/
def escaped (quote c : Char) : List Char :=
  if c = '\x00' then [backslash, '0']
  else if c = '\t' then [backslash, 't']
  else if c = '\r' then [backslash, 'r']
  else if c = '\n' then [backslash, 'n']
  else if c = backslash ∨ c = quote then [backslash, c]
  else if isGlyphless c then codePointEscape c
  else [c]

/-- A text between double quotes. -/
def quoted (text : String) : String :=
  String.ofList (doubleQuote :: text.toList.flatMap (escaped doubleQuote) ++ [doubleQuote])

/-- A character between single quotes. -/
def quotedChar (c : Char) : String :=
  String.ofList (singleQuote :: escaped singleQuote c ++ [singleQuote])

end Text

end BusSchema
