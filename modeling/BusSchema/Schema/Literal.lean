import BusSchema.Number.Decimal
import BusSchema.Schema.Primitive
import BusSchema.Text.Numeral
import BusSchema.Text.Quoted

/-!
# Literals of constants

A constant is initialised by a literal, which is read under the kind of the constant's type:
`true` and `false` in either case, decimal floats, integers in four radices, and characters
between single quotes for unsigned types.
-/

namespace BusSchema

/-- The value of a constant, by the kind of its type. -/
inductive ConstantValue
  | bool (value : Bool)
  | signed (value : Int)
  | unsigned (value : Nat)
  | float (value : Double)
deriving DecidableEq

namespace ConstantValue

/-- The value as a double, rounded if it has to be. -/
def toDouble : ConstantValue → Double
  | bool value => Double.ofNat value.toNat
  | signed value => Double.ofInt value
  | unsigned value => Double.ofNat value
  | float value => value

/-- The value of an integer constant that is not negative. -/
def natural? : ConstantValue → Option Nat
  | signed value => if 0 ≤ value then some value.toNat else none
  | unsigned value => some value
  | _ => none

/-- The text of the value, the same for all literals that denote it. -/
def text : ConstantValue → String
  | bool value => if value then "true" else "false"
  | signed value => toString value
  | unsigned value => toString value
  | float value => value.text

end ConstantValue

/-- Why a literal is refused. -/
inductive LiteralError
  /-- Neither of the two booleans. -/
  | boolean (literal : String)
  /-- No decimal numeral, or one beyond the finite doubles. -/
  | float (literal : String)
  /-- No numeral of a magnitude below `2 ^ 64`; the text is what stands after the sign. -/
  | integer (magnitude : String)
  /-- A signed number that needs more than 64 bits. -/
  | tooWide (literal : String)
  /-- No character or known escape between the quotes. -/
  | character (literal : String)
  /-- A literal for padding. -/
  | void
deriving DecidableEq

namespace LiteralError

/-- The wording of the error. -/
def message : LiteralError → String
  | boolean literal => "invalid boolean literal " ++ literal
  | float literal => "invalid float literal " ++ literal
  | integer magnitude => "invalid integer literal " ++ magnitude
  | tooWide literal => "integer literal " ++ literal ++ " does not fit in 64 bits"
  | character literal => "invalid character literal " ++ literal
  | void => "void cannot hold a constant"

end LiteralError

namespace Literal

/-- The radix that a literal announces, and what stands after the announcement. -/
def splitRadix : List Char → Nat × List Char
  | '0' :: 'x' :: digits => (16, digits)
  | '0' :: 'X' :: digits => (16, digits)
  | '0' :: 'b' :: digits => (2, digits)
  | '0' :: 'B' :: digits => (2, digits)
  | '0' :: 'o' :: digits => (8, digits)
  | '0' :: 'O' :: digits => (8, digits)
  | digits => (10, digits)

/-- Reads a magnitude below `2 ^ 64` in the radix that it announces. -/
def readMagnitude (text : List Char) : Except LiteralError Nat :=
  let (radix, digits) := splitRadix text
  (Numeral.read radix (twoPow 64) digits).mapError fun _ => .integer (String.ofList text)

/-- The character that a backslash and a letter stand for. -/
def unescape? (letter : Char) : Option Char :=
  if letter = 'n' then some '\n'
  else if letter = 't' then some '\t'
  else if letter = 'r' then some '\r'
  else if letter = '0' then some '\x00'
  else if letter = Text.backslash then some Text.backslash
  else if letter = Text.singleQuote then some Text.singleQuote
  else none

/-- The character that stands between the quotes of a character literal. -/
def readQuoted? : List Char → Option Char
  | [c] => some c
  | [mark, letter] => if mark = Text.backslash then unescape? letter else none
  | _ => none

/-- Reads a character literal as the code point of its character. -/
def readCharacter (text : List Char) : Except LiteralError Nat :=
  let invalid := LiteralError.character (String.ofList text)
  match text with
  | [] => .error invalid
  | first :: rest =>
    if first = Text.singleQuote ∧ rest.getLast? = some Text.singleQuote then
      match readQuoted? rest.dropLast with
      | some c => .ok c.toNat
      | none => .error invalid
    else .error invalid

/-- Reads an integer with a sign if any, within the signed 64-bit range. -/
def readSigned (text : List Char) : Except LiteralError Int := do
  let (negative, magnitude) := Decimal.splitSign text
  let n ← readMagnitude magnitude
  let value : Int := if negative then -n else n
  if -(twoPow 63 : Int) ≤ value ∧ value < (twoPow 63 : Int) then return value
  else throw (.tooWide (String.ofList text))

/-- Reads a literal under a kind. -/
def read (kind : ScalarKind) (literal : String) : Except LiteralError ConstantValue :=
  let text := literal.toList
  match kind with
  | .bool =>
    let lower := text.map Char.toLower
    if lower = "true".toList then .ok (.bool true)
    else if lower = "false".toList then .ok (.bool false)
    else .error (.boolean literal)
  | .float =>
    match (Decimal.read? text).map Decimal.toDouble with
    | some value => if value.isFinite then .ok (.float value) else .error (.float literal)
    | none => .error (.float literal)
  | .signed => (readSigned text).map .signed
  | .unsigned =>
    if text.head? = some Text.singleQuote then (readCharacter text).map .unsigned
    else (readMagnitude text).map .unsigned
  | .void => .error .void

end Literal

end BusSchema
