/-!
# Bindings

Values bound to names.  The value of a name is that of its last binding, which is the one that
`Bindings.get?` finds and the only one of that name in `Bindings.sorted`.
-/

namespace BusSchema

/-- Values bound to names. -/
structure Bindings (α : Type) where
  /-- The bindings, the last one first; earlier bindings of a name stay behind later ones. -/
  entries : List (String × α) := []

namespace Bindings

variable {α : Type}

/-- The value of a name. -/
def get? (bindings : Bindings α) (name : String) : Option α :=
  (bindings.entries.find? (·.1 = name)).map Prod.snd

/-- The bindings with a name bound to a value. -/
def bind (bindings : Bindings α) (name : String) (value : α) : Bindings α :=
  ⟨(name, value) :: bindings.entries⟩

/-- The bindings of a list of pairs, a later pair replacing an earlier one of the same name. -/
def ofList (pairs : List (String × α)) : Bindings α :=
  pairs.foldl (fun bindings (name, value) => bindings.bind name value) {}

/-- The first entry of each run of entries with the same name, unless its name is `last`. -/
def firstOfRuns : Option String → List (String × α) → List (String × α)
  | _, [] => []
  | last, entry :: rest =>
    if last = some entry.1 then firstOfRuns last rest
    else entry :: firstOfRuns (some entry.1) rest

/-- The bindings in the order of their names, each name once with its value. -/
def sorted (bindings : Bindings α) : List (String × α) :=
  firstOfRuns none (bindings.entries.mergeSort fun a b => !(b.1 < a.1))

/-- The value of a name is that of its last binding. -/
theorem get?_bind (bindings : Bindings α) (name other : String) (value : α) :
    (bindings.bind name value).get? other =
      if name = other then some value else bindings.get? other := by
  by_cases h : name = other <;> simp [bind, get?, h]

end Bindings

end BusSchema
