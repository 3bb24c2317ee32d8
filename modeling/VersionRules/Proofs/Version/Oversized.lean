import VersionRules.Proofs.Version.Rebuild

/-!
# Rebuild numbers that exceed 64 bits

A rebuild number that exceeds 64 bits is not read as a number. The tail then stays part of the
qualifier, where a numeric part of that size would count as the largest number of 64 bits. Such a
rebuild is still above those that are read as numbers, as its qualifier goes on from theirs. But two
such rebuilds are ordered by their numerals as texts: that is the order of the numbers if these have
equally many digits, and otherwise the higher one can be ranked lower. If the pattern of the suffix
does not compile, then all rebuilds are of this kind, however low their numbers are.

## Main definitions

* `IsUnsplitRebuildOf` — the parts of a rebuild whose tail stays in the qualifier

## Main results

* `isUnsplitRebuildOf_ofString` — an oversized rebuild is read as one
* `order_rebuilt_of_not_compiles` — without a pattern, rebuilds are ordered by numerals as texts
* `order_rebuilt_eq` — the order of two rebuilds, whatever their numbers are
* `higher_rebuild_ranked_lower_iff` — where the higher number is ranked lower
-/

namespace VersionRules.SuffixedVersion

variable {compiles : String → Bool} {suffix base written digits : String}
  {cs ds es tail run run' : List Char} {n m : Nat} {v w : SuffixedVersion}

/-! ### Numerals as texts -/

/-- The first digit counts for a power of ten. -/
theorem ofDigitChars_cons_zero (c : Char) (run : List Char) :
    Nat.ofDigitChars 10 (c :: run) 0 =
      10 ^ run.length * (c.toNat - '0'.toNat) + Nat.ofDigitChars 10 run 0 := by
  rw [Nat.ofDigitChars_cons, Nat.ofDigitChars_eq_ofDigitChars_zero, Nat.mul_zero, Nat.zero_add]

/-- The digits behind the first one do not make up for it. -/
theorem ofDigitChars_lt_pow (hrun : ∀ c ∈ run, c.isDigit) :
    Nat.ofDigitChars 10 run 0 < 10 ^ run.length := by
  induction run with
  | nil => decide
  | cons c run ih =>
    obtain ⟨hc, hrun⟩ := List.forall_mem_cons.1 hrun
    have hdigit : c.toNat - '0'.toNat + 1 ≤ 10 := by
      have hcode : 48 ≤ c.toNat ∧ c.toNat ≤ 57 := Char.isDigit_iff_toNat.1 hc
      have hzero : '0'.toNat = 48 := rfl
      omega
    rw [ofDigitChars_cons_zero, List.length_cons, Nat.pow_succ]
    calc 10 ^ run.length * (c.toNat - '0'.toNat) + Nat.ofDigitChars 10 run 0
      _ < 10 ^ run.length * (c.toNat - '0'.toNat + 1) := Nat.add_lt_add_left (ih hrun) _
      _ ≤ 10 ^ run.length * 10 := Nat.mul_le_mul_left _ hdigit

/-- Among runs with equally many digits, the one with the lower number is the lower text. -/
theorem lt_of_ofDigitChars_lt (hrun : ∀ c ∈ run, c.isDigit) (hrun' : ∀ c ∈ run', c.isDigit)
    (hlength : run.length = run'.length)
    (hlt : Nat.ofDigitChars 10 run 0 < Nat.ofDigitChars 10 run' 0) : run < run' := by
  induction run generalizing run' with
  | nil =>
    obtain rfl := List.eq_nil_of_length_eq_zero hlength.symm
    exact absurd hlt (Nat.lt_irrefl _)
  | cons c run ih =>
    obtain ⟨c', run', rfl⟩ := List.exists_cons_of_length_eq_add_one hlength.symm
    obtain ⟨hc, hds⟩ := List.forall_mem_cons.1 hrun
    obtain ⟨hc', hds'⟩ := List.forall_mem_cons.1 hrun'
    have htail := Nat.succ.inj hlength
    rw [ofDigitChars_cons_zero, ofDigitChars_cons_zero, ← htail] at hlt
    have hpow := htail ▸ ofDigitChars_lt_pow hds'
    have hcode : 48 ≤ c.toNat := (Char.isDigit_iff_toNat.1 hc).1
    have hcode' : 48 ≤ c'.toNat := (Char.isDigit_iff_toNat.1 hc').1
    have hzero : '0'.toNat = 48 := rfl
    rcases lt_trichotomy c c' with h | rfl | h
    · exact List.cons_lt_cons_iff.2 (.inl h)
    · exact List.cons_lt_cons_iff.2
        (.inr ⟨rfl, ih hds hds' htail (Nat.lt_of_add_lt_add_left hlt)⟩)
    · -- The first digit is higher, and the others are too few to make up for it.
      have hdigit : c'.toNat - '0'.toNat + 1 ≤ c.toNat - '0'.toNat := by
        have : c'.toNat < c.toNat := h
        omega
      have := Nat.mul_le_mul_left (10 ^ run.length) hdigit
      rw [Nat.mul_add_one] at this
      omega

theorem toString_eq_numeral (n : Nat) : toString n = numeral 0 n := by
  simp [numeral]

theorem isRun_toString (n : Nat) : IsRun (toString n).toList :=
  toString_eq_numeral n ▸ isRun_numeral 0 n

theorem ofDigitChars_toString (n : Nat) : Nat.ofDigitChars 10 (toString n).toList 0 = n :=
  toString_eq_numeral n ▸ ofDigitChars_numeral 0 n

/-- Numerals with equally many digits are ordered as texts like the numbers. -/
theorem toString_lt_toString (hnm : n < m) (hlength : (toString n).length = (toString m).length) :
    toString n < toString m := by
  rw [← String.length_toList, ← String.length_toList] at hlength
  rw [String.lt_iff_toList_lt]
  refine lt_of_ofDigitChars_lt (isRun_toString n).isDigit (isRun_toString m).isDigit hlength ?_
  rwa [ofDigitChars_toString, ofDigitChars_toString]

/-! ### The parts of an oversized rebuild -/

/-- A version has the numeric parts of a base, no rebuild number, and as its qualifier all that
follows the numeric parts: that of the base, and a tail behind a dot. -/
structure IsUnsplitRebuildOf (base : String) (tail : List Char) (v : SuffixedVersion) : Prop where
  major : v.major = part (numericPrefix base.toList).1 0
  minor : v.minor = part (numericPrefix base.toList).1 1
  micro : v.micro = part (numericPrefix base.toList).1 2
  qualifier : v.qualifier =
    String.ofList (dropDelimiter ((numericPrefix base.toList).2 ++ '.' :: tail))
  rebuildNumber : v.rebuildNumber = none

/-- A rebuild whose tail is not split off keeps it in the qualifier. -/
theorem isUnsplitRebuildOf_of_splitRebuild (hwritten : Text.BeginsWithLetter written)
    (hcs : dropDelimiter ((numericPrefix base.toList).2 ++
      '.' :: (written.toList ++ '-' :: digits.toList)) = cs)
    (hsplit : splitRebuild compiles suffix cs = (cs, none)) :
    IsUnsplitRebuildOf base (written.toList ++ '-' :: digits.toList)
      (ofString compiles suffix (rebuilt base written digits)) := by
  have hprefix := numericPrefix_rebuilt base digits hwritten
  obtain ⟨hmajor, hminor, hmicro⟩ := parts_rebuilt compiles suffix base digits hwritten
  refine ⟨hmajor, hminor, hmicro, ?_, ?_⟩
  · rw [qualifier_ofString, hprefix, hcs, hsplit]
  · rw [SuffixedVersion.rebuildNumber, rebuild_ofString, hprefix, hcs, hsplit]
    rfl

/-- A rebuild with an oversized number is not split: its first tail is the appended one, and this
has no rebuild number. -/
theorem isUnsplitRebuildOf_ofString (hbase : '\n' ∉ base.toList)
    (hsuffix : Text.BeginsWithLetter suffix) (hwritten : Text.sameIgnoringAsciiCase written suffix)
    (hdigits : IsRun digits.toList) (hvalue : 2 ^ 64 ≤ Nat.ofDigitChars 10 digits.toList 0) :
    IsUnsplitRebuildOf base (written.toList ++ '-' :: digits.toList)
      (ofString compiles suffix (rebuilt base written digits)) := by
  have hletter := hsuffix.of_sameIgnoringAsciiCase hwritten
  obtain ⟨f, hfirst, -, -, hk⟩ := exists_isFirst_rebuilt (newline_notMem_rest hbase)
    (Text.map_fold_of_sameIgnoringAsciiCase hwritten) hletter hdigits
  refine isUnsplitRebuildOf_of_splitRebuild hletter rfl ?_
  refine splitRebuild_of_not_isNumber fun g hg hnumber => ?_
  obtain rfl := hfirst.unique hg
  exact absurd (hk ▸ hnumber.2) (Nat.not_lt_of_le hvalue)

/-- Without a pattern that compiles, every rebuild is read in this way. -/
theorem isUnsplitRebuildOf_of_not_compiles (hcompiles : ¬ compiles suffix)
    (hwritten : Text.BeginsWithLetter written) :
    IsUnsplitRebuildOf base (written.toList ++ '-' :: digits.toList)
      (ofString compiles suffix (rebuilt base written digits)) :=
  isUnsplitRebuildOf_of_splitRebuild hwritten rfl (splitRebuild_of_not_compiles hcompiles _)

/-! ### The order of oversized rebuilds -/

/-- A rebuild that is read as one is below one that is not split. -/
theorem IsRebuildOf.compare_unsplit (htail : tail ≠ []) (hv : IsRebuildOf base n v)
    (hw : IsUnsplitRebuildOf base tail w) : v.compare w = .lt := by
  obtain ⟨lead, -, -, htext⟩ := exists_dropDelimiter_rebuilt (numericPrefix base.toList).2
  rw [compare_of_parts (hv.major.trans hw.major.symm) (hv.minor.trans hw.minor.symm)
    (hv.micro.trans hw.micro.symm), hv.qualifier, hw.qualifier, htext,
    compare_append (List.append_ne_nil_of_right_ne_nil lead htail), Ordering.lt_then]

/-- Rebuilds that are not split are ordered by what tells their tails apart. -/
theorem IsUnsplitRebuildOf.compare_eq (hv : IsUnsplitRebuildOf base (cs ++ ds) v)
    (hw : IsUnsplitRebuildOf base (cs ++ es) w) :
    v.compare w = Ord.compare (String.ofList ds) (String.ofList es) := by
  obtain ⟨lead, -, -, htext⟩ := exists_dropDelimiter_rebuilt (numericPrefix base.toList).2
  rw [compare_of_parts (hv.major.trans hw.major.symm) (hv.minor.trans hw.minor.symm)
    (hv.micro.trans hw.micro.symm), hv.qualifier, hw.qualifier, hv.rebuildNumber, hw.rebuildNumber,
    Std.compare_self, Ordering.then_eq, htext, htext, compare_append_left,
    compare_append_left, compare_append_left]

/-- Rebuilds that are not split are ordered by their numerals as texts. -/
theorem order_rebuilt_of_unsplit
    (hn : IsUnsplitRebuildOf base (suffix.toList ++ '-' :: (toString n).toList)
      (ofString compiles suffix (rebuilt base suffix (toString n))))
    (hm : IsUnsplitRebuildOf base (suffix.toList ++ '-' :: (toString m).toList)
      (ofString compiles suffix (rebuilt base suffix (toString m)))) :
    order compiles suffix (rebuilt base suffix (toString n)) (rebuilt base suffix (toString m)) =
      Ord.compare (toString n) (toString m) := by
  rw [← List.singleton_append, ← List.append_assoc] at hn hm
  rw [order, hn.compare_eq hm, String.ofList_toList, String.ofList_toList]

/-- Without a pattern that compiles, rebuilds are ordered by their numerals as texts. -/
theorem order_rebuilt_of_not_compiles (base : String) (hsuffix : Text.BeginsWithLetter suffix)
    (hcompiles : ¬ compiles suffix) (n m : Nat) :
    order compiles suffix (rebuilt base suffix (toString n)) (rebuilt base suffix (toString m)) =
      Ord.compare (toString n) (toString m) :=
  order_rebuilt_of_unsplit (isUnsplitRebuildOf_of_not_compiles hcompiles hsuffix)
    (isUnsplitRebuildOf_of_not_compiles hcompiles hsuffix)

/-- The order of two rebuilds with different numbers, whatever these are. -/
theorem order_rebuilt_eq (hbase : '\n' ∉ base.toList) (hsuffix : Text.BeginsWithLetter suffix)
    (hcompiles : compiles suffix) (hnm : n < m) :
    order compiles suffix (rebuilt base suffix (toString n)) (rebuilt base suffix (toString m)) =
      if n < 2 ^ 64 then .lt else Ord.compare (toString n) (toString m) := by
  have hsame : Text.sameIgnoringAsciiCase suffix suffix := beq_self_eq_true _
  -- Each number decides by itself how its rebuild is read, so there are three cases.
  have hunsplit {m : Nat} (hm : 2 ^ 64 ≤ m) :
      IsUnsplitRebuildOf base (suffix.toList ++ '-' :: (toString m).toList)
        (ofString compiles suffix (rebuilt base suffix (toString m))) := by
    refine isUnsplitRebuildOf_ofString hbase hsuffix hsame (isRun_toString m) ?_
    rwa [ofDigitChars_toString]
  have hsplit {m : Nat} (hm : m < 2 ^ 64) :
      IsRebuildOf base m (ofString compiles suffix (rebuilt base suffix (toString m))) :=
    isRebuildOf_ofString hbase hsuffix hcompiles hsame (isRun_toString m) (ofDigitChars_toString m)
      hm
  by_cases hn : n < 2 ^ 64
  · rw [if_pos hn]
    by_cases hm : m < 2 ^ 64
    · exact ((hsplit hn).compare_eq (hsplit hm)).trans (Nat.compare_eq_lt.2 hnm)
    · have hm := hunsplit (Nat.le_of_not_lt hm)
      exact (hsplit hn).compare_unsplit (by simp) hm
  · rw [if_neg hn]
    have hn := Nat.le_of_not_lt hn
    exact order_rebuilt_of_unsplit (hunsplit hn) (hunsplit (hn.trans hnm.le))

/-- **Rebuilds with higher numbers.** For a suffix with a pattern that compiles, and of two rebuilds
of one base, the one with the higher number is ranked lower exactly if both numbers exceed 64 bits
and its numeral is the lower text. So it is ranked higher if the lower number does not exceed 64
bits, and if the numerals have equally many digits. -/
theorem higher_rebuild_ranked_lower_iff (compiles : String → Bool) (hbase : '\n' ∉ base.toList)
    (hsuffix : Text.BeginsWithLetter suffix) (hcompiles : compiles suffix) (hnm : n < m) :
    (order compiles suffix (rebuilt base suffix (toString n)) (rebuilt base suffix (toString m)) =
          .gt ↔
        2 ^ 64 ≤ n ∧ toString m < toString n) ∧
      (n < 2 ^ 64 ∨ (toString n).length = (toString m).length →
        order compiles suffix (rebuilt base suffix (toString n))
          (rebuilt base suffix (toString m)) = .lt) := by
  rw [order_rebuilt_eq hbase hsuffix hcompiles hnm]
  by_cases hn : n < 2 ^ 64
  · rw [if_pos hn]
    exact ⟨⟨nofun, fun h => absurd hn (Nat.not_lt_of_le h.1)⟩, fun _ => rfl⟩
  · rw [if_neg hn, compare_gt_iff_gt]
    refine ⟨⟨fun h => ⟨Nat.le_of_not_lt hn, h⟩, And.right⟩, ?_⟩
    rintro (hlt | hlength)
    · exact absurd hlt hn
    · exact compare_lt_iff_lt.2 (toString_lt_toString hnm hlength)

/-- The first number of 65 bits is above the last one of 64 bits, and below the next one. -/
theorem higher_rebuild_ranked_lower_iff_limit :
    order (fun _ => true) "redhat" (rebuilt "1.0" "redhat" (toString (2 ^ 64 - 1)))
        (rebuilt "1.0" "redhat" (toString (2 ^ 64))) = .lt ∧
      order (fun _ => true) "redhat" (rebuilt "1.0" "redhat" (toString (2 ^ 64)))
        (rebuilt "1.0" "redhat" (toString (2 ^ 64 + 1))) = .lt := by
  have hbase : '\n' ∉ "1.0".toList := by decide
  have hsuffix : Text.BeginsWithLetter "redhat" := ⟨'r', "edhat".toList, rfl, rfl⟩
  constructor
  · exact (higher_rebuild_ranked_lower_iff _ hbase hsuffix rfl (by decide)).2 (.inl (by decide))
  · exact (higher_rebuild_ranked_lower_iff _ hbase hsuffix rfl (by decide)).2
      (.inr (by decide +kernel))

/-- A higher rebuild number can be ranked lower: the tails are compared as texts, and the numeral of
twenty-one digits is the lower one. -/
theorem not_higher_rebuild_at_least :
    ¬ ∀ (compiles : String → Bool) (base suffix : String) (n m : Nat), '\n' ∉ base.toList →
      Text.BeginsWithLetter suffix → compiles suffix → n < m →
        order compiles suffix (rebuilt base suffix (toString n))
          (rebuilt base suffix (toString m)) ≠ .gt := by
  intro h
  have hsuffix : Text.BeginsWithLetter "redhat" := ⟨'r', "edhat".toList, rfl, rfl⟩
  refine h (fun _ => true) "1.0" "redhat" 99999999999999999999 100000000000000000000 (by decide)
    hsuffix rfl (by decide) ?_
  decide +kernel

end VersionRules.SuffixedVersion
