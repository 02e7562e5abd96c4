/-!
# Beginnings of lists

`dropBeginning?` cuts a given beginning off a list.  It succeeds exactly on the lists that start
with that beginning, and then gives what follows it.
-/

namespace BusSchema

/-- What follows a beginning, if the list starts with it. -/
def dropBeginning? {α : Type} [DecidableEq α] : List α → List α → Option (List α)
  | [], rest => some rest
  | _ :: _, [] => none
  | b :: beginning, a :: list => if b = a then dropBeginning? beginning list else none

theorem dropBeginning?_eq_some_iff {α : Type} [DecidableEq α] {beginning list rest : List α} :
    dropBeginning? beginning list = some rest ↔ list = beginning ++ rest := by
  induction beginning generalizing list with
  | nil => simp [dropBeginning?]
  | cons b beginning ih =>
    cases list with
    | nil => simp [dropBeginning?]
    | cons a list =>
      by_cases h : b = a
      · simp [dropBeginning?, h, ih]
      · simp [dropBeginning?, h, Ne.symm h]

/-- A list starts with the given beginning. -/
def startsWith {α : Type} [DecidableEq α] (beginning list : List α) : Bool :=
  (dropBeginning? beginning list).isSome

end BusSchema
