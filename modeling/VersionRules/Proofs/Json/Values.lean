import VersionRules.Json.Basic

/-!
# Values and their strings

A value that is printed and read again comes back with its strings as they are written. It is the
same value otherwise: nested as deep, and with the same numbers.

## Main definitions

* `Json.mapStrings` — a value with every string replaced, keys included
* `Json.allNumbers` — whether every number satisfies a test
* `Json.KeysAscend` — members that are in the order of their keys

## Main results

* `Json.depth_mapStrings` — the nesting does not depend on the strings
* `Json.decode?_mapStrings` — decoding undoes a way of writing strings
* `Json.entries_of_keysAscend` — members that are in order stay as they are
-/

namespace VersionRules.Json

open Std

variable {S T : Type}

/-! ### Replacing strings -/

mutual

/-- A value with every string replaced, keys included. -/
def mapStrings (f : S → T) : Json S → Json T
  | null => null
  | bool value => bool value
  | number literal => number literal
  | string s => string (f s)
  | array items => array (mapItems f items)
  | object members => object (mapMembers f members)

/-- The items of an array with every string replaced. -/
def mapItems (f : S → T) : List (Json S) → List (Json T)
  | [] => []
  | item :: items => item.mapStrings f :: mapItems f items

/-- The members of an object with every string replaced. -/
def mapMembers (f : S → T) : List (S × Json S) → List (T × Json T)
  | [] => []
  | (key, value) :: members => (f key, value.mapStrings f) :: mapMembers f members

end

mutual

/-- The nesting does not depend on the strings. -/
theorem depth_mapStrings (f : S → T) : ∀ v : Json S, (v.mapStrings f).depth = v.depth
  | null | bool _ | number _ | string _ => rfl
  | array items => by rw [mapStrings, depth, depth, depthItems_mapItems f items]
  | object members => by rw [mapStrings, depth, depth, depthMembers_mapMembers f members]

theorem depthItems_mapItems (f : S → T) :
    ∀ items : List (Json S), depthItems (mapItems f items) = depthItems items
  | [] => rfl
  | item :: items => by
    rw [mapItems, depthItems, depthItems, depth_mapStrings f item, depthItems_mapItems f items]

theorem depthMembers_mapMembers (f : S → T) :
    ∀ members : List (S × Json S), depthMembers (mapMembers f members) = depthMembers members
  | [] => rfl
  | (key, value) :: members => by
    rw [mapMembers, depthMembers, depthMembers, depth_mapStrings f value,
      depthMembers_mapMembers f members]

end

theorem depthItems_le_iff {items : List (Json S)} {n : Nat} :
    depthItems items ≤ n ↔ ∀ item ∈ items, item.depth ≤ n := by
  induction items with
  | nil => simp [depthItems]
  | cons item items ih => rw [depthItems, List.forall_mem_cons, ← ih, Nat.max_le]

theorem depthMembers_le_iff {members : List (S × Json S)} {n : Nat} :
    depthMembers members ≤ n ↔ ∀ member ∈ members, member.2.depth ≤ n := by
  induction members with
  | nil => simp [depthMembers]
  | cons member members ih => rw [depthMembers, List.forall_mem_cons, ← ih, Nat.max_le]

/-! ### Numbers -/

mutual

/-- Whether every number of a value satisfies a test. -/
def allNumbers (p : String → Bool) : Json S → Bool
  | null | bool _ | string _ => true
  | number literal => p literal
  | array items => allNumbersItems p items
  | object members => allNumbersMembers p members

/-- Whether every number of the items of an array satisfies a test. -/
def allNumbersItems (p : String → Bool) : List (Json S) → Bool
  | [] => true
  | item :: items => item.allNumbers p && allNumbersItems p items

/-- Whether every number of the members of an object satisfies a test. -/
def allNumbersMembers (p : String → Bool) : List (S × Json S) → Bool
  | [] => true
  | (_, value) :: members => value.allNumbers p && allNumbersMembers p members

end

theorem allNumbersItems_iff {p : String → Bool} {items : List (Json S)} :
    allNumbersItems p items ↔ ∀ item ∈ items, item.allNumbers p := by
  induction items with
  | nil => simp [allNumbersItems]
  | cons item items ih => rw [allNumbersItems, List.forall_mem_cons, ← ih, Bool.and_eq_true]

theorem allNumbersMembers_iff {p : String → Bool} {members : List (S × Json S)} :
    allNumbersMembers p members ↔ ∀ member ∈ members, member.2.allNumbers p := by
  induction members with
  | nil => simp [allNumbersMembers]
  | cons member members ih => rw [allNumbersMembers, List.forall_mem_cons, ← ih, Bool.and_eq_true]

/-! ### Decoding -/

variable {write : T → S} {string? : S → Option T} {accepts : String → Bool}

mutual

/-- Decoding undoes a way of writing strings, if it does so for each string and accepts every
number. -/
theorem decode?_mapStrings (h : ∀ s, string? (write s) = some s) :
    ∀ v : Json T, v.allNumbers accepts → (v.mapStrings write).decode? string? accepts = some v
  | null, _ | bool _, _ => rfl
  | number literal, hv => by
    rw [allNumbers] at hv
    rw [mapStrings, decode?, if_pos hv]
  | string s, _ => by rw [mapStrings, decode?, h, Option.map_some]
  | array items, hv => by
    rw [allNumbers] at hv
    rw [mapStrings, decode?, decodeItems?_mapItems h items hv, Option.map_some]
  | object members, hv => by
    rw [allNumbers] at hv
    rw [mapStrings, decode?, decodeMembers?_mapMembers h members hv, Option.map_some]

theorem decodeItems?_mapItems (h : ∀ s, string? (write s) = some s) :
    ∀ items : List (Json T), allNumbersItems accepts items →
      decodeItems? string? accepts (mapItems write items) = some items
  | [], _ => rfl
  | item :: items, hv => by
    rw [allNumbersItems, Bool.and_eq_true] at hv
    rw [mapItems, decodeItems?, decode?_mapStrings h item hv.1, decodeItems?_mapItems h items hv.2]
    rfl

theorem decodeMembers?_mapMembers (h : ∀ s, string? (write s) = some s) :
    ∀ members : List (T × Json T), allNumbersMembers accepts members →
      decodeMembers? string? accepts (mapMembers write members) = some members
  | [], _ => rfl
  | (key, value) :: members, hv => by
    rw [allNumbersMembers, Bool.and_eq_true] at hv
    rw [mapMembers, decodeMembers?, h, decode?_mapStrings h value hv.1,
      decodeMembers?_mapMembers h members hv.2]
    rfl

end

/-! ### Keys -/

variable {α : Type} {key : String} {value : α} {members sorted : List (String × α)}

/-- The keys of the members ascend. -/
def KeysAscend (members : List (String × α)) : Prop :=
  members.Pairwise fun a b => compare a.1 b.1 = .lt

theorem insertEntry_of_gt (h : ∀ entry ∈ sorted, compare key entry.1 = .gt) :
    insertEntry key value sorted = sorted ++ [(key, value)] := by
  induction sorted with
  | nil => rfl
  | cons entry sorted ih =>
    obtain ⟨hentry, hsorted⟩ := List.forall_mem_cons.1 h
    rw [insertEntry, hentry, ih hsorted]
    rfl

/-- Members whose keys ascend are in the order of their keys. -/
theorem entries_of_keysAscend (h : KeysAscend members) : entries members = members := by
  have hfold : ∀ sorted, KeysAscend (sorted ++ members) →
      members.foldl (fun sorted entry => insertEntry entry.1 entry.2 sorted) sorted =
        sorted ++ members := by
    clear h
    induction members with
    | nil => simp
    | cons member members ih =>
      intro sorted h
      -- The key of the next member is above all that are there, so it goes to the end.
      have hgt : ∀ entry ∈ sorted, compare member.1 entry.1 = .gt := fun entry hentry =>
        OrientedCmp.gt_of_lt ((List.pairwise_append.1 h).2.2 entry hentry member List.mem_cons_self)
      rw [← List.singleton_append, ← List.append_assoc] at h
      show members.foldl _ (insertEntry member.1 member.2 sorted) = _
      rw [insertEntry_of_gt hgt, ih _ h, List.append_assoc, List.singleton_append]
  exact hfold [] h

end VersionRules.Json
