/-
# Fields — named values in the order of their names

A list of named values, each name once, ascending in the order of the names'
characters. `put` adds a value or replaces the one of its name; `ofList` takes
pairs in any order, and of two with one name the later.
-/

namespace Inlay

set_option autoImplicit false

abbrev Fields (α : Type) := List (String × α)

namespace Fields

variable {α β : Type}

/-- The value of a name. -/
def get? (name : String) (fields : Fields α) : Option α := fields.lookup name

/-- Adds a value, or replaces the value of its name. -/
def put (name : String) (value : α) : Fields α → Fields α
  | [] => [(name, value)]
  | (other, old) :: rest =>
    if name = other then (name, value) :: rest
    else if name < other then (name, value) :: (other, old) :: rest
    else (other, old) :: put name value rest

/-- The fields of pairs in any order; the later of two with one name counts. -/
def ofList (pairs : List (String × α)) : Fields α :=
  pairs.foldl (fun fields pair => fields.put pair.1 pair.2) []

/-- The fields without a name. -/
def drop (name : String) (fields : Fields α) : Fields α := fields.filter (·.1 ≠ name)

def mapValues (f : α → β) (fields : Fields α) : Fields β :=
  fields.map fun (name, value) => (name, f value)

end Fields

end Inlay
