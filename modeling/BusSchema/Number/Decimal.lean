import BusSchema.Number.Double

/-!
# Decimal numerals for doubles

Reading: a numeral is an exact number `± coefficient * 10 ^ exponent`, and `Decimal.toDouble`
rounds it once.

Writing: `Double.shortest` picks the decimal number with the fewest significant digits that
reads back as the same double, and of two such numbers the nearer one.  `Double.text` writes it
out positionally, never with an exponent.
-/

namespace BusSchema

/-- An exact decimal number, `coefficient * 10 ^ exponent` with a sign. -/
structure Decimal where
  /-- The sign as written, also in front of a zero. -/
  negative : Bool
  /-- All digits before the exponent, without the point. -/
  coefficient : Nat
  /-- The power of ten that the coefficient is multiplied by. -/
  exponent : Int
deriving DecidableEq

namespace Decimal

/-- The number that a list of decimal digits denotes. -/
def ofDigits (digits : List Char) : Nat :=
  digits.foldl (fun n c => 10 * n + (c.toNat - '0'.toNat)) 0

/-- Splits off a sign; a text without one is positive. -/
def splitSign : List Char → Bool × List Char
  | '-' :: rest => (true, rest)
  | '+' :: rest => (false, rest)
  | rest => (false, rest)

/-- The exponent part of a numeral: nothing, or a letter `e`, a sign if any, and digits. -/
def readExponent? : List Char → Option Int
  | [] => some 0
  | mark :: rest =>
    let (negative, digits) := splitSign rest
    if (mark = 'e' ∨ mark = 'E') ∧ digits ≠ [] ∧ digits.all Char.isDigit then
      some (if negative then -(ofDigits digits : Int) else ofDigits digits)
    else none

/--
Reads a numeral: a sign if any, digits with at most one point among or around them, and an
exponent if any.  At least one digit has to stand before the exponent.
-/
def read? (text : List Char) : Option Decimal :=
  let (negative, unsigned) := splitSign text
  let whole := unsigned.takeWhile Char.isDigit
  let afterWhole := unsigned.dropWhile Char.isDigit
  let (fraction, afterFraction) := match afterWhole with
    | '.' :: rest => (rest.takeWhile Char.isDigit, rest.dropWhile Char.isDigit)
    | rest => ([], rest)
  if whole = [] ∧ fraction = [] then none
  else
    (readExponent? afterFraction).map fun exponent =>
      ⟨negative, ofDigits (whole ++ fraction), exponent - fraction.length⟩

/--
The double nearest to a decimal number.  A coefficient that is not zero with an exponent above
400 is beyond every double, and one that stays below `10 ^ -400` rounds to zero; neither needs
its power of ten.
-/
def toDouble (d : Decimal) : Double :=
  if d.coefficient = 0 then Double.ofMagnitude d.negative 0
  else if 400 < d.exponent then
    Double.ofMagnitude d.negative BinaryFormat.double.infinity
  else if d.exponent + (Nat.log2 d.coefficient + 1) < -400 then
    Double.ofMagnitude d.negative 0
  else
    Double.ofRatio d.negative (d.coefficient * tenPow d.exponent.toNat)
      (tenPow (-d.exponent).toNat)

end Decimal

namespace Double

/-- Every decimal number that `shortest` looks at is a multiple of `10 ^ -decimalPlaces`. -/
def decimalPlaces : Nat := 400

/--
The open or closed interval of numbers that round to a finite magnitude, in halves of a unit:
its lower end, its upper end, and whether the ends belong to it.
-/
def roundingInterval (magnitude : Nat) : Nat × Nat × Bool :=
  let units := BinaryFormat.double.units
  let here := units magnitude
  (here + units (magnitude - 1), here + units (magnitude + 1), magnitude % 2 = 0)

/-- `candidate * 10 ^ -decimalPlaces` rounds to the given finite magnitude. -/
def roundsTo (magnitude candidate : Nat) : Bool :=
  let (low, high, closed) := roundingInterval magnitude
  let unitsPerOne := twoPow BinaryFormat.double.unitExponent
  let point := 2 * candidate * unitsPerOne
  let scale := tenPow decimalPlaces
  if closed then low * scale ≤ point && point ≤ high * scale
  else low * scale < point && point < high * scale

/--
The neighbours of a number on the grid of multiples of `step` that round to its magnitude, the
nearer one first choice and the upper one on a tie.
-/
def nearestOnGrid? (magnitude scaled scaledDen step : Nat) : Option Nat :=
  let lower := scaled / (scaledDen * step) * step
  let upper := lower + step
  match roundsTo magnitude lower, roundsTo magnitude upper with
  | false, false => none
  | true, false => some lower
  | false, true => some upper
  | true, true =>
    if 2 * scaled < (lower + upper) * scaledDen then some lower else some upper

/--
The decimal number with the fewest significant digits that rounds to a finite magnitude, as a
multiple of `10 ^ -decimalPlaces`.  The grids with one, two, … seventeen digits are tried in
turn, and on the last of them a neighbour always rounds to the magnitude.
-/
def shortest (magnitude : Nat) : Nat :=
  let scaled := BinaryFormat.double.units magnitude * tenPow decimalPlaces
  let scaledDen := twoPow BinaryFormat.double.unitExponent
  let digits := (Nat.toDigits 10 (scaled / scaledDen)).length
  let grids := (List.range 17).map fun n => tenPow (digits - (n + 1))
  (grids.findSome? (nearestOnGrid? magnitude scaled scaledDen)).getD 0

/-- A digit string without the zeros at its end. -/
def dropFinalZeros (digits : List Char) : List Char :=
  (digits.reverse.dropWhile (· = '0')).reverse

/-- A multiple of `10 ^ -decimalPlaces` in positional notation, with a point only if needed. -/
def positional (scaled : Nat) : List Char :=
  let one := tenPow decimalPlaces
  let whole := Nat.toDigits 10 (scaled / one)
  let fractionDigits := Nat.toDigits 10 (scaled % one)
  let padded := List.replicate (decimalPlaces - fractionDigits.length) '0' ++ fractionDigits
  match dropFinalZeros padded with
  | [] => whole
  | fraction => whole ++ '.' :: fraction

/-- The text of a double: the shortest decimal number that reads back, written positionally. -/
def text (x : Double) : String :=
  if x.isNaN then "NaN"
  else
    let body :=
      if x.magnitude = 0 then ['0']
      else if x.isFinite then positional (shortest x.magnitude)
      else ['i', 'n', 'f']
    String.ofList (if x.isNegative then '-' :: body else body)

end Double

end BusSchema
