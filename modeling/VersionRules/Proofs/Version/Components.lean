import VersionRules.Proofs.Version.Decomposition
import Mathlib.Data.String.Basic

/-!
# Spellings of the numeric parts

The same numeric parts can be written in several ways: with zeros before them, with other delimiters
between them, and without the zero parts at their end. If nothing goes on with them, then what is
read behind them does not depend on how they are written, and neither does the order: two such
versions are compared by the numbers in each place, where a missing one is zero.

## Main definitions

* `SpellsParts` — the texts that are one to three numeric parts
* `number` — the number in one place, however large it is

## Main results

* `SpellsParts.numericPrefix_append` — what is read of such a text, whatever follows it
* `order_parts_append` — the order of two spellings is that of their parts
* `order_spellings` — spellings of the same numbers are equal in the order
-/

namespace VersionRules.SuffixedVersion

variable {compiles : String → Bool} {suffix written written' rest : String} {cs p : List Char}
  {runs runs' : List (List Char)}

/-! ### Spellings -/

/-- The text is one to three runs of digits with single delimiters between them. -/
structure SpellsParts (runs : List (List Char)) (p : List Char) : Prop where
  spells : SpellsRuns runs p
  ne_nil : runs ≠ []
  length_le : runs.length ≤ 3

/-- The number in one place, which is zero if there is none. -/
def number (runs : List (List Char)) (i : Nat) : Nat :=
  (runs[i]?.map fun run => Nat.ofDigitChars 10 run 0).getD 0

/-- Only numbers that exceed 64 bits are not told apart. -/
theorem part_eq_min (runs : List (List Char)) (i : Nat) :
    part runs i = min (number runs i) (2 ^ 64 - 1) := by
  rw [part, number]
  cases runs[i]? <;> rfl

/-! ### Reading a spelling -/

/-- All of a spelling is read. -/
theorem SpellsParts.numericPrefix_eq (h : SpellsParts runs p) : numericPrefix p = (runs, []) := by
  have hread := isNumericPrefix_numericPrefix p
  have hnil := hread.longest runs p [] h.spells h.length_le (List.append_nil p).symm
  have hrest : (numericPrefix p).2 = [] := List.eq_nil_of_length_eq_zero (Nat.le_zero.1 hnil)
  obtain ⟨q, hq, hp⟩ := hread.exists_text
  rw [hrest, List.append_nil] at hp
  subst hp
  exact Prod.ext (hq.unique h.spells) hrest

/-- What does not go on with a spelling is left for the other parts. -/
theorem SpellsParts.numericPrefix_append (h : SpellsParts runs p) (hcs : StopsRuns cs) :
    numericPrefix (p ++ cs) = (runs, cs) := by
  rw [hcs.numericPrefix_append, h.numericPrefix_eq, List.nil_append]

/-! ### The order of spellings -/

/-- What follows the numeric parts is the same in both, so the order is that of the parts. -/
theorem order_parts_append (hwritten : SpellsParts runs written.toList)
    (hwritten' : SpellsParts runs' written'.toList) (hrest : StopsRuns rest.toList) :
    order compiles suffix (written ++ rest) (written' ++ rest) =
      (Ord.compare (part runs 0) (part runs' 0)).then
        ((Ord.compare (part runs 1) (part runs' 1)).then
          (Ord.compare (part runs 2) (part runs' 2))) := by
  have hprefix := hwritten.numericPrefix_append hrest
  have hprefix' := hwritten'.numericPrefix_append hrest
  rw [← String.toList_append] at hprefix hprefix'
  simp only [order, SuffixedVersion.compare, compareLex, compareOn, major_ofString, minor_ofString,
    micro_ofString, qualifier_ofString, rebuildNumber, rebuild_ofString, hprefix, hprefix',
    Std.compare_self, Ordering.then_eq]

/-- **The order of spellings.** Two versions that go on in the same way behind their numeric parts
are equal in the order if they have the same number in each place, with zero for a missing one. And
they are equal only then, except that numbers beyond 64 bits count as the largest one of 64 bits. -/
theorem order_spellings (hwritten : SpellsParts runs written.toList)
    (hwritten' : SpellsParts runs' written'.toList) (hrest : StopsRuns rest.toList) :
    ((∀ i, number runs i = number runs' i) →
        order compiles suffix (written ++ rest) (written' ++ rest) = .eq) ∧
      (order compiles suffix (written ++ rest) (written' ++ rest) = .eq →
        ∀ i, min (number runs i) (2 ^ 64 - 1) = min (number runs' i) (2 ^ 64 - 1)) := by
  rw [order_parts_append hwritten hwritten' hrest]
  constructor
  · intro h
    simp only [part_eq_min, h, Std.compare_self, Ordering.then_eq]
  · intro h i
    simp only [Ordering.then_eq_eq, Nat.compare_eq_eq, part_eq_min] at h
    obtain ⟨hmajor, hminor, hmicro⟩ := h
    match i with
    | 0 => exact hmajor
    | 1 => exact hminor
    | 2 => exact hmicro
    | i + 3 =>
      -- Neither spelling has that many parts.
      have hnone {runs : List (List Char)} (h : runs.length ≤ 3) : number runs (i + 3) = 0 := by
        rw [number, List.getElem?_eq_none (Nat.le_add_left_of_le h)]
        rfl
      rw [hnone hwritten.length_le, hnone hwritten'.length_le]

/-- Two parts and three, with other delimiters and other zeros, before the same tail. -/
theorem order_spellings_tail :
    SpellsParts ["1".toList, "02".toList] "1.02".toList ∧
      SpellsParts ["01".toList, "2".toList, "0".toList] "01-2_0".toList ∧
      StopsRuns "-redhat-7".toList ∧
      order (fun _ => true) "redhat" ("1.02" ++ "-redhat-7") ("01-2_0" ++ "-redhat-7") = .eq := by
  have hrun (run : List Char) (hne : run ≠ []) (hdigits : run.all Char.isDigit) : IsRun run :=
    ⟨hne, List.all_eq_true.1 hdigits⟩
  have htwo : SpellsParts ["1".toList, "02".toList] "1.02".toList := by
    refine ⟨.cons (hrun "1".toList nofun rfl) (.cons rfl (hrun "02".toList nofun rfl) .nil), nofun,
      by decide⟩
  have hthree : SpellsParts ["01".toList, "2".toList, "0".toList] "01-2_0".toList := by
    refine ⟨.cons (hrun "01".toList nofun rfl) (.cons rfl (hrun "2".toList nofun rfl)
      (.cons rfl (hrun "0".toList nofun rfl) .nil)), nofun, by decide⟩
  have hrest : StopsRuns "-redhat-7".toList := by
    refine ⟨fun c hc => Option.some.inj hc ▸ rfl, ?_⟩
    rintro d rest hcs - c hc
    obtain ⟨-, rfl⟩ := List.cons.inj hcs
    exact Option.some.inj hc ▸ rfl
  refine ⟨htwo, hthree, hrest, (order_spellings htwo hthree hrest).1 fun i => ?_⟩
  match i with
  | 0 | 1 | 2 | i + 3 => rfl

end VersionRules.SuffixedVersion
