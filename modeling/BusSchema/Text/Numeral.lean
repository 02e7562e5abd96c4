import BusSchema.Number.Power

/-!
# Whole-number numerals

Reads a numeral in a given radix.  The digits are taken in order, so a numeral that is both too
large and ill-formed is reported for whichever fault comes first.
-/

namespace BusSchema

/-- Why a text is no numeral of the wanted size. -/
inductive NumeralError
  /-- There is no text at all. -/
  | empty
  /-- A character is no digit of the radix, or there is only a sign. -/
  | invalidDigit
  /-- The number does not fit. -/
  | tooLarge
deriving DecidableEq

namespace NumeralError

/-- The wording of the error. -/
def message : NumeralError → String
  | empty => "cannot parse integer from empty string"
  | invalidDigit => "invalid digit found in string"
  | tooLarge => "number too large to fit in target type"

end NumeralError

namespace Numeral

/-- The value of a digit or letter, the letters of either case counting from ten. -/
def digit? (c : Char) : Option Nat :=
  if '0' ≤ c ∧ c ≤ '9' then some (c.toNat - '0'.toNat)
  else if 'a' ≤ c ∧ c ≤ 'z' then some (c.toNat - 'a'.toNat + 10)
  else if 'A' ≤ c ∧ c ≤ 'Z' then some (c.toNat - 'A'.toNat + 10)
  else none

/-- The value of a digit of the given radix. -/
def digitOf? (radix : Nat) (c : Char) : Option Nat :=
  (digit? c).filter (· < radix)

/-- Continues a number that stays below `limit` with further digits. -/
def readDigits (radix limit : Nat) : List Char → Nat → Except NumeralError Nat
  | [], n => .ok n
  | c :: rest, n =>
    match digitOf? radix c with
    | none => .error .invalidDigit
    | some d =>
      if radix * n + d < limit then readDigits radix limit rest (radix * n + d)
      else .error .tooLarge

/-- Reads an unsigned numeral below `limit`; one plus sign may stand before the digits. -/
def read (radix limit : Nat) : List Char → Except NumeralError Nat
  | [] => .error .empty
  | ['+'] => .error .invalidDigit
  | '+' :: digits => readDigits radix limit digits 0
  | digits => readDigits radix limit digits 0

/-- Reads a decimal numeral below `2 ^ 32`. -/
def read32? (text : String) : Option Nat := (read 10 (twoPow 32) text.toList).toOption

end Numeral

end BusSchema
