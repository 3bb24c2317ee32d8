import Mathlib.Data.List.Sort
import VersionRules.Proofs.Json.Values

/-!
# What stands under the keys of an object

An object may have several members with one key, of which the last one counts. Its entries are these
members in the order of their keys, and there is only one list of entries that ascends and has the
same value under every key.

## Main definitions

* `Json.member?` — what stands under a key

## Main results

* `Json.keysAscend_entries`, `Json.lookup_entries` — entries ascend, and nothing is lost
* `Json.keysAscend_ext` — entries are determined by what stands under each key
* `Json.entries_eq_iff` — both together
-/

namespace VersionRules.Json

open Std

variable {α : Type} {key : String} {value : α} {entry : String × α}
  {members sorted es : List (String × α)}

/-- What stands under a key of an object: the value of the last member with this key. -/
def member? (key : String) (members : List (String × α)) : Option α :=
  members.reverse.lookup key

theorem lookup_cons_eq (key k : String) (value : α) (members : List (String × α)) :
    ((key, value) :: members).lookup k = if k = key then some value else members.lookup k := by
  rw [List.lookup_cons]
  by_cases hk : k = key
  · simp [hk]
  · rw [beq_false_of_ne hk, if_neg hk]

/-! ### Insertion -/

theorem lookup_insertEntry (key k : String) (value : α) (sorted : List (String × α)) :
    (insertEntry key value sorted).lookup k = if k = key then some value else sorted.lookup k := by
  induction sorted with
  | nil => exact lookup_cons_eq key k value []
  | cons entry sorted ih =>
    obtain ⟨key', value'⟩ := entry
    rw [insertEntry]
    split
    · rw [lookup_cons_eq]
    · next heq =>
      obtain rfl : key = key' := LawfulEqCmp.eq_of_compare heq
      rw [lookup_cons_eq, lookup_cons_eq]
      split <;> rfl
    · next hgt =>
      have hne : key ≠ key' := by
        rintro rfl
        cases ReflCmp.compare_self.symm.trans hgt
      rw [lookup_cons_eq, lookup_cons_eq, ih]
      by_cases hk : k = key
      · rw [if_pos hk, if_pos hk, if_neg (hk ▸ hne)]
      · rw [if_neg hk, if_neg hk]

/-- An entry of the longer list is the new one or was there before. -/
theorem mem_insertEntry (h : entry ∈ insertEntry key value sorted) :
    entry = (key, value) ∨ entry ∈ sorted := by
  induction sorted with
  | nil => exact .inl (List.mem_singleton.1 h)
  | cons first sorted ih =>
    rw [insertEntry] at h
    split at h
    · exact List.mem_cons.1 h
    · exact (List.mem_cons.1 h).imp_right (List.mem_cons_of_mem _)
    · rcases List.mem_cons.1 h with rfl | h
      · exact .inr List.mem_cons_self
      · exact (ih h).imp_right (List.mem_cons_of_mem _)

theorem keysAscend_insertEntry (h : KeysAscend sorted) :
    KeysAscend (insertEntry key value sorted) := by
  induction sorted with
  | nil => exact List.pairwise_singleton _ _
  | cons first sorted ih =>
    obtain ⟨hfirst, hsorted⟩ := List.pairwise_cons.1 h
    rw [insertEntry]
    split
    · next hlt =>
      refine List.pairwise_cons.2 ⟨List.forall_mem_cons.2 ⟨hlt, ?_⟩, h⟩
      exact fun entry hentry => TransCmp.lt_trans hlt (hfirst entry hentry)
    · next heq =>
      obtain rfl : key = first.1 := LawfulEqCmp.eq_of_compare heq
      exact List.pairwise_cons.2 ⟨hfirst, hsorted⟩
    · next hgt =>
      refine List.pairwise_cons.2 ⟨?_, ih hsorted⟩
      intro entry hentry
      rcases mem_insertEntry hentry with rfl | hentry
      · exact OrientedCmp.lt_of_gt hgt
      · exact hfirst entry hentry

/-! ### Entries -/

theorem keysAscend_entries (members : List (String × α)) : KeysAscend (entries members) := by
  have hfold : ∀ sorted, KeysAscend sorted → KeysAscend
      (members.foldl (fun sorted entry => insertEntry entry.1 entry.2 sorted) sorted) := by
    induction members with
    | nil => exact fun sorted h => h
    | cons member members ih => exact fun sorted h => ih _ (keysAscend_insertEntry h)
  exact hfold [] List.Pairwise.nil

/-- Under each key stands the last member with this key. -/
theorem lookup_entries (key : String) (members : List (String × α)) :
    (entries members).lookup key = member? key members := by
  have hfold : ∀ sorted,
      (members.foldl (fun sorted entry => insertEntry entry.1 entry.2 sorted) sorted).lookup key =
        (member? key members).or (sorted.lookup key) := by
    induction members with
    | nil => exact fun sorted => rfl
    | cons member members ih =>
      intro sorted
      rw [List.foldl_cons, ih, lookup_insertEntry, member?, member?, List.reverse_cons,
        List.lookup_append, lookup_cons_eq, Option.or_assoc]
      split <;> rfl
  rw [← Option.or_none (o := member? key members)]
  exact hfold []

theorem KeysAscend.mem_iff_lookup (h : KeysAscend members) :
    (key, value) ∈ members ↔ members.lookup key = some value := by
  induction members with
  | nil => simp
  | cons member members ih =>
    obtain ⟨key', value'⟩ := member
    obtain ⟨hmember, hmembers⟩ := List.pairwise_cons.1 h
    rw [List.mem_cons, lookup_cons_eq, ih hmembers, Prod.mk.injEq]
    by_cases hkey : key = key'
    · -- The key of the first member does not come again.
      have hnone : members.lookup key ≠ some value := by
        intro hlookup
        have hlt := hmember _ ((ih hmembers).2 hlookup)
        rw [hkey] at hlt
        cases ReflCmp.compare_self.symm.trans hlt
      simp [hkey, hkey ▸ hnone, eq_comm]
    · simp [hkey]

/-- Ascending members are determined by what stands under each key. -/
theorem keysAscend_ext (h : KeysAscend members) (h' : KeysAscend es)
    (hlookup : ∀ key, members.lookup key = es.lookup key) : members = es := by
  have hirrefl : Irrefl fun a b : String × α => compare a.1 b.1 = .lt :=
    ⟨fun a hlt => by cases ReflCmp.compare_self.symm.trans hlt⟩
  have hantisymm : Antisymm fun a b : String × α => compare a.1 b.1 = .lt :=
    ⟨fun a b hab hba => absurd (TransCmp.lt_trans hab hba) (hirrefl.irrefl a)⟩
  refine List.Pairwise.eq_of_mem_iff h h' ?_
  rintro ⟨key, value⟩
  rw [h.mem_iff_lookup, h'.mem_iff_lookup, hlookup]

theorem entries_eq_iff :
    entries members = es ↔ KeysAscend es ∧ ∀ key, es.lookup key = member? key members := by
  constructor
  · rintro rfl
    exact ⟨keysAscend_entries members, fun key => lookup_entries key members⟩
  · rintro ⟨h, hlookup⟩
    refine keysAscend_ext (keysAscend_entries members) h fun key => ?_
    rw [lookup_entries, hlookup]

end VersionRules.Json
