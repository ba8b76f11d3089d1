import Schemata.Text.Basic

/-!
Dictionaries: association lists kept in the order of their keys.

`insert` keeps the keys strictly increasing, so a dictionary built with it has each key once and two dictionaries
with the same entries are equal lists.
-/

namespace Schemata

/-- entries in increasing order of their keys -/
abbrev Dict (α : Type) := List (String × α)

namespace Dict

variable {α β : Type}

def get? (d : Dict α) (key : String) : Option α := (d.find? (·.1 == key)).map (·.2)

def has (d : Dict α) (key : String) : Bool := d.any (·.1 == key)

/-- adds an entry or replaces the one of the same key -/
def insert : Dict α → String → α → Dict α
  | [], key, v => [(key, v)]
  | (k, w) :: rest, key, v =>
    if key < k then (key, v) :: (k, w) :: rest
    else if key = k then (key, v) :: rest
    else (k, w) :: Dict.insert rest key v

def erase (d : Dict α) (key : String) : Dict α := d.filter (·.1 != key)

def keys (d : Dict α) : List String := d.map (·.1)

/-- later entries win -/
def ofList (entries : List (String × α)) : Dict α :=
  entries.foldl (fun d e => Dict.insert d e.1 e.2) []

def mapValues (d : Dict α) (f : α → β) : Dict β := d.map fun (k, v) => (k, f v)

end Dict

/-- strings sorted and without repetition -/
def sortedSet (xs : List String) : List String :=
  Dict.keys (Dict.ofList (xs.map fun x => (x, ())))

/-- strings in increasing order -/
def sortStrings (xs : List String) : List String := xs.mergeSort Text.le

end Schemata
