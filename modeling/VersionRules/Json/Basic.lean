/-!
# JSON values

The type of strings is a parameter. A text is first read with its strings as they are written,
escapes and all, and each reader of a document then decides which of them it needs as text.
Numbers are kept as they are written.

## Main definitions

* `Json` — values over a type of strings
* `Json.depth` — how deep arrays and objects are nested
* `Json.decode?` — a value with its strings decoded
* `Json.entries` — the members of an object in the order of their keys, the last of equal keys
  taking the place of the others
-/

namespace VersionRules

/-- A JSON value with strings of type `S`. -/
inductive Json (S : Type) where
  | null
  | bool (value : Bool)
  | number (literal : String)
  | string (s : S)
  | array (items : List (Json S))
  | object (members : List (S × Json S))

namespace Json

variable {S T : Type}

/-! ### Nesting -/

mutual

/-- The number of arrays and objects around the innermost value, the value itself included. -/
def depth : Json S → Nat
  | null | bool _ | number _ | string _ => 0
  | array items => depthItems items + 1
  | object members => depthMembers members + 1

/-- The greatest depth of the items of an array. -/
def depthItems : List (Json S) → Nat
  | [] => 0
  | item :: items => max item.depth (depthItems items)

/-- The greatest depth of the members of an object. -/
def depthMembers : List (S × Json S) → Nat
  | [] => 0
  | (_, value) :: members => max value.depth (depthMembers members)

end

/-! ### Decoding -/

mutual

/-- A value with its strings decoded, if every string can be decoded and every number is
accepted. -/
def decode? (string? : S → Option T) (accepts : String → Bool) : Json S → Option (Json T)
  | null => some null
  | bool value => some (bool value)
  | number literal => if accepts literal then some (number literal) else none
  | string s => (string? s).map string
  | array items => (decodeItems? string? accepts items).map array
  | object members => (decodeMembers? string? accepts members).map object

/-- The items of an array, decoded. -/
def decodeItems? (string? : S → Option T) (accepts : String → Bool) :
    List (Json S) → Option (List (Json T))
  | [] => some []
  | item :: items => do
    let item ← item.decode? string? accepts
    let items ← decodeItems? string? accepts items
    return item :: items

/-- The members of an object, decoded. -/
def decodeMembers? (string? : S → Option T) (accepts : String → Bool) :
    List (S × Json S) → Option (List (T × Json T))
  | [] => some []
  | (key, value) :: members => do
    let key ← string? key
    let value ← value.decode? string? accepts
    let members ← decodeMembers? string? accepts members
    return (key, value) :: members

end

/-! ### Keys -/

/-- Puts a member into a list of members in the order of their keys, in place of one with the same
key. -/
def insertEntry {α : Type} (key : String) (value : α) :
    List (String × α) → List (String × α)
  | [] => [(key, value)]
  | entry :: entries =>
    match compare key entry.1 with
    | .lt => (key, value) :: entry :: entries
    | .eq => (key, value) :: entries
    | .gt => entry :: insertEntry key value entries

/-- The members of an object in the order of their keys. Of members with equal keys the last one
counts. -/
def entries {α : Type} (members : List (String × α)) : List (String × α) :=
  members.foldl (fun sorted (key, value) => insertEntry key value sorted) []

end Json

end VersionRules
