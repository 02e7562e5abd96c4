/-!
# Powers of two and ten

Widths in bits and places of decimals both turn into factors here, and lists of lengths into
totals.
-/

namespace BusSchema

/-- The number of patterns of `k` bits. -/
def twoPow (k : Nat) : Nat := Nat.pow 2 k

/-- The factor that moves a decimal point by `k` places. -/
def tenPow (k : Nat) : Nat := Nat.pow 10 k

/-- The sum of a list of numbers. -/
def total (numbers : List Nat) : Nat := numbers.foldr (· + ·) 0

/-- The largest of a list of numbers, or zero if there is none. -/
def maximum (numbers : List Nat) : Nat := numbers.foldr max 0

end BusSchema
