import VersionRules.Proofs.Version.Numeric
import VersionRules.Proofs.Version.Tail
import Mathlib.Algebra.Group.Nat.Defs

/-!
# What the parts of a version are

A version is its numeric parts, what follows them without a delimiter at its start, and in this a
tail, if there is one whose digits are a number of 64 bits. Every text is read in this way, and what
is read from it is determined: the numeric parts are the longest ones, and the tail is the first
one. If its digits are no such number, no other tail is looked for, and all is qualifier. This is so
for suffixes with a pattern that compiles; with any other suffix, no tail is looked for at all.

## Main definitions

* `part` — the number in one place of a version
* `TailSplit.IsNumber` — tails with a rebuild number
* `IsDecomposition` — the parts of a version, and the warnings about them

## Main results

* `isDecomposition_iff` — the parts that are read are those that the text has
* `ofString_of_not_compiles` — without a pattern, versions are read as with the empty suffix
-/

namespace VersionRules.SuffixedVersion

attribute [ext] SuffixedVersion

variable {compiles : String → Bool} {suffix text : String} {v w : SuffixedVersion}
  {ws ws' : List Warning} {runs runs' : List (List Char)} {cs rest rest' : List Char}

/-- The number in one place: zero if there is none, and the largest number of 64 bits if it exceeds
this. -/
def part (runs : List (List Char)) (i : Nat) : Nat :=
  match runs[i]? with
  | some run => min (Nat.ofDigitChars 10 run 0) (2 ^ 64 - 1)
  | none => 0

/-- The digits of a tail are ASCII digits, and the number they denote has 64 bits. -/
def TailSplit.IsNumber {suffix text : List Char} (f : TailSplit suffix text) : Prop :=
  (∀ c ∈ f.digits, c.isDigit) ∧ Nat.ofDigitChars 10 f.digits 0 < 2 ^ 64

/-- The parts of a version with a numeric prefix and a rest, and the warnings about them. -/
structure IsDecomposition (suffix text : String) (runs : List (List Char)) (rest : List Char)
    (v : SuffixedVersion) (ws : List Warning) : Prop where
  numeric : IsNumericPrefix text.toList runs rest
  major : v.major = part runs 0
  minor : v.minor = part runs 1
  micro : v.micro = part runs 2
  noNumericPart : runs = [] → ws = [.noNumericPart text]
  partTooLarge : runs ≠ [] →
    ws = (runs.filter fun run => 2 ^ 64 ≤ Nat.ofDigitChars 10 run 0).map fun run =>
      .partTooLarge text (String.ofList run)
  suffixed (f : TailSplit suffix.toList (dropDelimiter rest)) : f.IsFirst → f.IsNumber →
    v.qualifier = String.ofList f.before ∧
      v.rebuild = some ⟨String.ofList f.matched, Nat.ofDigitChars 10 f.digits 0⟩
  unsuffixed : (∀ f : TailSplit suffix.toList (dropDelimiter rest), f.IsFirst → ¬ f.IsNumber) →
    v.qualifier = String.ofList (dropDelimiter rest) ∧ v.rebuild = none
  text_eq : v.text = text

/-! ### What the parts are is determined -/

theorem IsDecomposition.unique (h : IsDecomposition suffix text runs rest v ws)
    (h' : IsDecomposition suffix text runs' rest' w ws') : v = w ∧ ws = ws' := by
  obtain ⟨rfl, rfl⟩ := h.numeric.unique h'.numeric
  -- Either the first tail gives both their qualifier and rebuild, or both have none.
  have htail : v.qualifier = w.qualifier ∧ v.rebuild = w.rebuild := by
    by_cases hf : ∃ f : TailSplit suffix.toList (dropDelimiter rest), f.IsFirst ∧ f.IsNumber
    · obtain ⟨f, hfirst, hnumber⟩ := hf
      obtain ⟨hqualifier, hrebuild⟩ := h.suffixed f hfirst hnumber
      obtain ⟨hqualifier', hrebuild'⟩ := h'.suffixed f hfirst hnumber
      exact ⟨hqualifier.trans hqualifier'.symm, hrebuild.trans hrebuild'.symm⟩
    · have hnone : ∀ f : TailSplit suffix.toList (dropDelimiter rest), f.IsFirst → ¬ f.IsNumber :=
        fun f hfirst hnumber => hf ⟨f, hfirst, hnumber⟩
      obtain ⟨hqualifier, hrebuild⟩ := h.unsuffixed hnone
      obtain ⟨hqualifier', hrebuild'⟩ := h'.unsuffixed hnone
      exact ⟨hqualifier.trans hqualifier'.symm, hrebuild.trans hrebuild'.symm⟩
  constructor
  · ext1
    · exact h.major.trans h'.major.symm
    · exact h.minor.trans h'.minor.symm
    · exact h.micro.trans h'.micro.symm
    · exact htail.1
    · exact htail.2
    · exact h.text_eq.trans h'.text_eq.symm
  · by_cases hruns : runs = []
    · rw [h.noNumericPart hruns, h'.noNumericPart hruns]
    · rw [h.partTooLarge hruns, h'.partTooLarge hruns]

/-! ### What is read -/

theorem partValue_eq_part (runs : List (List Char)) (i : Nat) :
    partValue runs[i]? = part runs i := by
  rw [part]
  cases runs[i]? <;> rfl

theorem major_ofString (compiles : String → Bool) (suffix text : String) :
    (ofString compiles suffix text).major = part (numericPrefix text.toList).1 0 :=
  partValue_eq_part _ 0

theorem minor_ofString (compiles : String → Bool) (suffix text : String) :
    (ofString compiles suffix text).minor = part (numericPrefix text.toList).1 1 :=
  partValue_eq_part _ 1

theorem micro_ofString (compiles : String → Bool) (suffix text : String) :
    (ofString compiles suffix text).micro = part (numericPrefix text.toList).1 2 :=
  partValue_eq_part _ 2

theorem rebuildNumber?_of_isNumber {suffix text : List Char} {f : TailSplit suffix text}
    (h : f.IsNumber) : rebuildNumber? f.digits = some (Nat.ofDigitChars 10 f.digits 0) := by
  refine if_pos ?_
  rw [Bool.and_eq_true, List.all_eq_true, decide_eq_true_eq]
  exact ⟨h.1, Nat.le_sub_one_of_lt h.2⟩

theorem rebuildNumber?_of_not_isNumber {suffix text : List Char} {f : TailSplit suffix text}
    (h : ¬ f.IsNumber) : rebuildNumber? f.digits = none := by
  refine if_neg ?_
  rw [Bool.and_eq_true, List.all_eq_true, decide_eq_true_eq]
  rintro ⟨hdigits, hle⟩
  exact h ⟨hdigits, Nat.lt_of_le_sub_one (by decide) hle⟩

/-- A text is split at its first tail, if this has a rebuild number. -/
theorem splitRebuild_of_isNumber (hsuffix : suffix ≠ "") (hcompiles : compiles suffix)
    {f : TailSplit suffix.toList cs} (hfirst : f.IsFirst) (hnumber : f.IsNumber) :
    splitRebuild compiles suffix cs =
      (f.before, some ⟨String.ofList f.matched, Nat.ofDigitChars 10 f.digits 0⟩) := by
  simp [splitRebuild, String.isEmpty_eq_false_iff.2 hsuffix, hcompiles, hfirst.tail?_eq,
    rebuildNumber?_of_isNumber hnumber]

/-- Otherwise it is not split, also if there are other tails. -/
theorem splitRebuild_of_not_isNumber
    (h : ∀ f : TailSplit suffix.toList cs, f.IsFirst → ¬ f.IsNumber) :
    splitRebuild compiles suffix cs = (cs, none) := by
  rw [splitRebuild]
  split
  · rfl
  · rcases tail?_cases suffix.toList cs with ⟨f, hfirst, htail⟩ | ⟨-, htail⟩
    · simp only [htail, rebuildNumber?_of_not_isNumber (h f hfirst)]
    · simp only [htail]

/-- Without a pattern that compiles, no text is split. -/
theorem splitRebuild_of_not_compiles (hcompiles : ¬ compiles suffix) (cs : List Char) :
    splitRebuild compiles suffix cs = (cs, none) := by
  simp [splitRebuild, hcompiles]

theorem qualifier_ofString (compiles : String → Bool) (suffix text : String) :
    (ofString compiles suffix text).qualifier =
      String.ofList
        (splitRebuild compiles suffix (dropDelimiter (numericPrefix text.toList).2)).1 :=
  rfl

theorem rebuild_ofString (compiles : String → Bool) (suffix text : String) :
    (ofString compiles suffix text).rebuild =
      (splitRebuild compiles suffix (dropDelimiter (numericPrefix text.toList).2)).2 :=
  rfl

theorem warnings_of_ne_nil (h : (numericPrefix text.toList).1 ≠ []) :
    warnings text =
      ((numericPrefix text.toList).1.filter fun run => 2 ^ 64 ≤ Nat.ofDigitChars 10 run 0).map
        fun run => .partTooLarge text (String.ofList run) := by
  obtain ⟨run, runs, hruns⟩ := List.exists_cons_of_ne_nil h
  rw [warnings, hruns]
  refine congrArg (List.map _) (List.filter_congr fun run _ => ?_)
  exact decide_eq_decide.2 (Nat.lt_iff_add_one_le (m := maxPart))

theorem isDecomposition_ofString (hsuffix : suffix ≠ "") (hcompiles : compiles suffix)
    (text : String) :
    IsDecomposition suffix text (numericPrefix text.toList).1 (numericPrefix text.toList).2
      (ofString compiles suffix text) (warnings text) where
  numeric := isNumericPrefix_numericPrefix text.toList
  major := major_ofString compiles suffix text
  minor := minor_ofString compiles suffix text
  micro := micro_ofString compiles suffix text
  noNumericPart h := by rw [warnings, h]
  partTooLarge h := warnings_of_ne_nil h
  suffixed f hfirst hnumber := by
    rw [qualifier_ofString, rebuild_ofString,
      splitRebuild_of_isNumber hsuffix hcompiles hfirst hnumber]
    exact ⟨rfl, rfl⟩
  unsuffixed hnone := by
    rw [qualifier_ofString, rebuild_ofString, splitRebuild_of_not_isNumber hnone]
    exact ⟨rfl, rfl⟩
  text_eq := rfl

/-- Without a pattern that compiles, a version is read as with the empty suffix. -/
theorem ofString_of_not_compiles (hcompiles : ¬ compiles suffix) (text : String) :
    ofString compiles suffix text = ofString compiles "" text := by
  simp only [ofString, splitRebuild_of_not_compiles hcompiles]
  rfl

/-- **The parts of a version.** For a suffix with a pattern that compiles, what is read from a text,
with the warnings about it, is what the numeric prefix, the rest and the first tail of the text say,
and this determines all of it. -/
theorem isDecomposition_iff (compiles : String → Bool) (hsuffix : suffix ≠ "")
    (hcompiles : compiles suffix) :
    (∃ runs rest, IsDecomposition suffix text runs rest v ws) ↔
      v = ofString compiles suffix text ∧ ws = warnings text := by
  have hread := isDecomposition_ofString hsuffix hcompiles text
  constructor
  · rintro ⟨runs, rest, h⟩
    exact h.unique hread
  · rintro ⟨rfl, rfl⟩
    exact ⟨_, _, hread⟩

/-- The suffix occurs twice before the number, once in upper case; one part exceeds 64 bits, one is
missing, and another has zeros before it. -/
theorem isDecomposition_iff_twice :
    ∃ runs rest, IsDecomposition "redhat" "18446744073709551616_007-GA.REDHAT-redhat00042" runs rest
      ⟨18446744073709551615, 7, 0, "GA.REDHAT", some ⟨"redhat", 42⟩,
        "18446744073709551616_007-GA.REDHAT-redhat00042"⟩
      [.partTooLarge "18446744073709551616_007-GA.REDHAT-redhat00042" "18446744073709551616"] :=
  (isDecomposition_iff (fun _ => true) (by decide) rfl).2 ⟨by decide +kernel, by decide +kernel⟩

end VersionRules.SuffixedVersion
