import Mathlib
import VersionRules.Proofs.Version.Decomposition

/-!
# The order of rebuilds

A rebuild of a version is written behind it: a dot, the suffix, a dash and a number. If the suffix
begins with a letter, what is appended leaves the numeric parts alone, and is read as the tail; no
earlier place can be the beginning of a tail, because only the last digits are behind the last dash.
So a rebuild has the parts of its base, with all that follows the numeric parts as its qualifier. It
is higher than the base, even if the base is a rebuild itself, and rebuilds of one base are ordered
by their numbers. All of this needs a suffix whose pattern compiles.

## Main definitions

* `rebuilt` — a rebuild of a version
* `IsRebuildOf` — the parts of a rebuild
* `numeral` — a number in decimal with zeros before it

## Main results

* `exists_isFirst_rebuilt` — the appended tail is the first one
* `isRebuildOf_ofString` — a rebuild is read as one
* `order_rebuilt` — a base is below its rebuilds, and these are ordered by number
-/

namespace VersionRules

namespace Text

variable {s t : String}

/-- The text begins with a letter in ASCII. -/
def BeginsWithLetter (s : String) : Prop :=
  ∃ c cs, s.toList = c :: cs ∧ c.isAlpha

theorem BeginsWithLetter.ne_empty (h : BeginsWithLetter s) : s ≠ "" := by
  rintro rfl
  obtain ⟨c, cs, hcs, -⟩ := h
  cases hcs

theorem BeginsWithLetter.of_sameIgnoringAsciiCase (ht : BeginsWithLetter t)
    (h : sameIgnoringAsciiCase s t) : BeginsWithLetter s := by
  obtain ⟨d, ds, hds, hd⟩ := ht
  have hlower := beq_iff_eq.1 h
  rw [hds, List.map_cons] at hlower
  obtain ⟨c, cs, hcs, hc, -⟩ := List.map_eq_cons_iff.1 hlower
  refine ⟨c, cs, hcs, ?_⟩
  rw [← Char.isAlpha_toLower_eq_isAlpha, hc, Char.isAlpha_toLower_eq_isAlpha, hd]

end Text

namespace SuffixedVersion

variable {compiles : String → Bool} {suffix base written written' : String}
  {cs ds rest k : List Char} {c : Char} {n : Nat} {v w : SuffixedVersion}

theorem not_isDelimiter_of_isAlpha (h : c.isAlpha) : ¬ isDelimiter c := by
  intro hc
  simp only [isDelimiter, Bool.or_eq_true, beq_iff_eq] at hc
  rcases hc with (rfl | rfl) | rfl <;> cases h

/-! ### The first tail -/

/-- No tail has more digits than one with a dash before its digits. -/
theorem TailSplit.length_digits_le_of_dash {suffix text : List Char} (f g : TailSplit suffix text)
    (hgap : f.gap = ['-']) : g.digits.length ≤ f.digits.length := by
  have hf : '-' :: f.digits <:+ text := by
    refine ⟨f.before ++ (f.lead ++ f.matched), ?_⟩
    conv_rhs => rw [f.text_eq, hgap]
    simp only [List.append_assoc, List.singleton_append]
  have hg : g.digits <:+ text := by
    refine ⟨g.before ++ (g.lead ++ (g.matched ++ g.gap)), ?_⟩
    conv_rhs => rw [g.text_eq]
    simp only [List.append_assoc]
  by_contra hlt
  have hsuffix := List.suffix_of_suffix_length_le hf hg (Nat.lt_of_not_le hlt)
  have hdigit := g.isDecimalDigit '-' (hsuffix.mem List.mem_cons_self)
  rw [isDecimalDigit_eq_false_of_isDelimiter rfl] at hdigit
  cases hdigit

/-- A tail with a dash before its digits comes first if it takes a delimiter before the suffix. If
it takes none, then nothing may stand before it, and it may not begin with one. -/
theorem TailSplit.isFirst_of_dash {suffix text : List Char} (f : TailSplit suffix text)
    (hgap : f.gap = ['-'])
    (hlead : f.lead = [] → f.before = [] ∧ ∃ c cs, f.matched = c :: cs ∧ ¬ isDelimiter c) :
    f.IsFirst := by
  intro g
  by_cases hl : f.lead = []
  · obtain ⟨hbefore, c, cs, hmatched, hc⟩ := hlead hl
    have hhead : text.head? = some c := by
      rw [f.text_eq, hbefore, hl, hmatched]
      rfl
    by_cases hg : g.before = []
    · refine .inr ⟨by rw [hbefore, hg], ?_⟩
      have hgap' := g.isGap_lead
      have htext := g.text_eq
      rw [hg, List.nil_append] at htext
      generalize g.lead = lead at hgap' htext
      cases hgap' with
      | none => exact Nat.zero_le _
      | one hd =>
        rw [htext] at hhead
        exact absurd (Option.some.inj hhead ▸ hd) hc
    · left
      rw [hbefore]
      exact List.length_pos_iff.2 hg
  · -- What stands before the digits is as long in both, up to the delimiters.
    have hlength := congrArg List.length (f.text_eq.symm.trans g.text_eq)
    simp only [List.length_append, f.length_matched, g.length_matched, hgap,
      List.length_singleton] at hlength
    have hdigits := f.length_digits_le_of_dash g hgap
    have hpos := List.length_pos_iff.2 hl
    have hf := f.isGap_lead.length_le
    have hg := g.isGap_lead.length_le
    have hg' := g.isGap_gap.length_le
    omega

/-- What is behind the numeric parts of a rebuild: as behind those of the base, and the tail. -/
theorem exists_dropDelimiter_rebuilt (rest : List Char) :
    ∃ lead, IsGap lead ∧ (lead = [] → dropDelimiter rest = []) ∧
      ∀ tail, dropDelimiter (rest ++ '.' :: tail) = dropDelimiter rest ++ (lead ++ tail) := by
  cases rest with
  | nil => exact ⟨[], .none, fun _ => rfl, fun _ => rfl⟩
  | cons c cs =>
    refine ⟨['.'], .one rfl, nofun, fun tail => ?_⟩
    rw [List.cons_append, dropDelimiter, dropDelimiter]
    split <;> rfl

/-- The tail of a rebuild is the first one. -/
theorem exists_isFirst_rebuilt {suffix written : List Char} (hrest : '\n' ∉ rest)
    (hfold : written.map Text.fold = suffix.map Text.fold)
    (hletter : ∃ c cs, written = c :: cs ∧ c.isAlpha) (hk : IsRun k) :
    ∃ f : TailSplit suffix (dropDelimiter (rest ++ '.' :: (written ++ '-' :: k))),
      f.IsFirst ∧ f.before = dropDelimiter rest ∧ f.matched = written ∧ f.digits = k := by
  obtain ⟨lead, hlead, hnil, htext⟩ := exists_dropDelimiter_rebuilt rest
  have hnewline : '\n' ∉ dropDelimiter rest := by
    obtain ⟨gap, -, hgap, -⟩ := exists_isGap_dropDelimiter rest
    exact fun h => hrest (hgap ▸ List.mem_append_right gap h)
  refine ⟨⟨dropDelimiter rest, lead, written, ['-'], k, htext _, hnewline, hlead, hfold, .one rfl,
    hk.ne_nil, fun c hc => Text.isDecimalDigit_of_isDigit (hk.isDigit c hc)⟩, ?_, rfl, rfl, rfl⟩
  refine TailSplit.isFirst_of_dash _ rfl fun h => ⟨hnil h, ?_⟩
  obtain ⟨c, cs, hcs, hc⟩ := hletter
  exact ⟨c, cs, hcs, not_isDelimiter_of_isAlpha hc⟩

/-! ### The parts of a rebuild -/

/-- A rebuild of a version: a dot, the suffix as it is written, a dash and the digits of a number
behind the base. -/
def rebuilt (base written digits : String) : String :=
  base ++ "." ++ written ++ "-" ++ digits

theorem toList_rebuilt (base written digits : String) :
    (rebuilt base written digits).toList =
      base.toList ++ '.' :: (written.toList ++ '-' :: digits.toList) := by
  simp [rebuilt, String.toList_append]

theorem numericPrefix_rebuilt (base digits : String) (hwritten : Text.BeginsWithLetter written) :
    numericPrefix (rebuilt base written digits).toList =
      ((numericPrefix base.toList).1,
        (numericPrefix base.toList).2 ++ '.' :: (written.toList ++ '-' :: digits.toList)) := by
  obtain ⟨c, cs, hcs, hc⟩ := hwritten
  -- The dot is a delimiter, but the letter behind it begins no run.
  have hstops : StopsRuns ('.' :: (written.toList ++ '-' :: digits.toList)) := by
    refine ⟨?_, ?_⟩
    · intro d hd
      obtain rfl := Option.some.inj hd
      rfl
    · intro d rest hd _ e he
      obtain ⟨-, rfl⟩ := List.cons.inj hd
      rw [hcs] at he
      obtain rfl := Option.some.inj he
      exact Bool.eq_false_iff.2 fun hdigit => Text.not_isAlpha_of_isDigit hdigit hc
  rw [toList_rebuilt, hstops.numericPrefix_append]

/-- The numeric parts of a rebuild are those of its base. -/
theorem parts_rebuilt (compiles : String → Bool) (suffix base digits : String)
    (hwritten : Text.BeginsWithLetter written) :
    (ofString compiles suffix (rebuilt base written digits)).major =
        part (numericPrefix base.toList).1 0 ∧
      (ofString compiles suffix (rebuilt base written digits)).minor =
        part (numericPrefix base.toList).1 1 ∧
      (ofString compiles suffix (rebuilt base written digits)).micro =
        part (numericPrefix base.toList).1 2 := by
  rw [major_ofString, minor_ofString, micro_ofString, numericPrefix_rebuilt base digits hwritten]
  exact ⟨rfl, rfl, rfl⟩

theorem newline_notMem_rest (h : '\n' ∉ cs) : '\n' ∉ (numericPrefix cs).2 := by
  obtain ⟨p, -, hp⟩ := (isNumericPrefix_numericPrefix cs).exists_text
  exact fun hmem => h (hp ▸ List.mem_append_right p hmem)

/-- A version has the numeric parts of a base, all that follows them as its qualifier, and a rebuild
number. -/
structure IsRebuildOf (base : String) (n : Nat) (v : SuffixedVersion) : Prop where
  major : v.major = part (numericPrefix base.toList).1 0
  minor : v.minor = part (numericPrefix base.toList).1 1
  micro : v.micro = part (numericPrefix base.toList).1 2
  qualifier : v.qualifier = String.ofList (dropDelimiter (numericPrefix base.toList).2)
  rebuildNumber : v.rebuildNumber = some n

/-- A rebuild is read as one. -/
theorem isRebuildOf_ofString {digits : String} (hbase : '\n' ∉ base.toList)
    (hsuffix : Text.BeginsWithLetter suffix) (hcompiles : compiles suffix)
    (hwritten : Text.sameIgnoringAsciiCase written suffix) (hdigits : IsRun digits.toList)
    (hvalue : Nat.ofDigitChars 10 digits.toList 0 = n) (hn : n < 2 ^ 64) :
    IsRebuildOf base n (ofString compiles suffix (rebuilt base written digits)) := by
  have hletter := hsuffix.of_sameIgnoringAsciiCase hwritten
  have hprefix := numericPrefix_rebuilt base digits hletter
  obtain ⟨hmajor, hminor, hmicro⟩ := parts_rebuilt compiles suffix base digits hletter
  obtain ⟨f, hfirst, hbefore, -, hk⟩ := exists_isFirst_rebuilt (newline_notMem_rest hbase)
    (Text.map_fold_of_sameIgnoringAsciiCase hwritten) hletter hdigits
  have hnumber : f.IsNumber := by
    rw [TailSplit.IsNumber, hk, hvalue]
    exact ⟨hdigits.isDigit, hn⟩
  have hsplit := splitRebuild_of_isNumber hsuffix.ne_empty hcompiles hfirst hnumber
  refine ⟨hmajor, hminor, hmicro, ?_, ?_⟩
  · rw [qualifier_ofString, hprefix, hsplit, hbefore]
  · rw [SuffixedVersion.rebuildNumber, rebuild_ofString, hprefix, hsplit, hk, hvalue]
    rfl

/-! ### Numerals -/

/-- A number in decimal with zeros before it. -/
def numeral (zeros n : Nat) : String :=
  String.ofList (List.replicate zeros '0') ++ toString n

theorem toList_numeral (zeros n : Nat) :
    (numeral zeros n).toList = List.replicate zeros '0' ++ Nat.toDigits 10 n := by
  rw [numeral, String.toList_append, String.toList_ofList, Nat.toString_eq_repr, Nat.toList_repr]

theorem isRun_numeral (zeros n : Nat) : IsRun (numeral zeros n).toList := by
  rw [toList_numeral]
  refine ⟨List.append_ne_nil_of_right_ne_nil _ Nat.toDigits_ne_nil, ?_⟩
  refine List.forall_mem_append.2 ⟨?_, ?_⟩
  · intro c hc
    rw [List.eq_of_mem_replicate hc]
    rfl
  · intro c hc
    exact Nat.isDigit_of_mem_toDigits (by decide) (by decide) hc

theorem ofDigitChars_numeral (zeros n : Nat) :
    Nat.ofDigitChars 10 (numeral zeros n).toList 0 = n := by
  rw [toList_numeral, Nat.ofDigitChars_append, Nat.ofDigitChars_replicate_zero, Nat.mul_zero,
    Nat.ofDigitChars_ten_toDigits]

/-! ### The order of rebuilds -/

/-- Where the numeric parts agree, the qualifiers decide, and last the rebuild numbers. -/
theorem compare_of_parts (hmajor : v.major = w.major) (hminor : v.minor = w.minor)
    (hmicro : v.micro = w.micro) :
    v.compare w = (Ord.compare v.qualifier w.qualifier).then
      (Ord.compare v.rebuildNumber w.rebuildNumber) := by
  simp only [SuffixedVersion.compare, compareLex, compareOn, hmajor, hminor, hmicro]
  simp

/-- A common beginning makes no difference to the order of two texts. -/
theorem compare_append_left (cs ds es : List Char) :
    Ord.compare (String.ofList (cs ++ ds)) (String.ofList (cs ++ es)) =
      Ord.compare (String.ofList ds) (String.ofList es) := by
  have happend {ds es : List Char} (h : String.ofList ds < String.ofList es) :
      String.ofList (cs ++ ds) < String.ofList (cs ++ es) := by
    rw [String.lt_iff_toList_lt, String.toList_ofList, String.toList_ofList] at h ⊢
    exact List.append_left_lt h
  rcases lt_trichotomy (String.ofList ds) (String.ofList es) with h | h | h
  · rw [compare_lt_iff_lt.2 h, compare_lt_iff_lt.2 (happend h)]
  · rw [String.ofList_injective h, Std.compare_self, Std.compare_self]
  · rw [compare_gt_iff_gt.2 h, compare_gt_iff_gt.2 (happend h)]

/-- A text is below what continues it. -/
theorem compare_append (hds : ds ≠ []) :
    Ord.compare (String.ofList cs) (String.ofList (cs ++ ds)) = .lt := by
  have hleft := compare_append_left cs [] ds
  obtain ⟨d, ds, rfl⟩ := List.exists_cons_of_ne_nil hds
  rw [List.append_nil] at hleft
  rw [hleft, compare_lt_iff_lt, String.lt_iff_toList_lt, String.toList_ofList, String.toList_ofList]
  exact .nil

theorem IsRebuildOf.compare_eq {m : Nat} (hv : IsRebuildOf base n v) (hw : IsRebuildOf base m w) :
    v.compare w = Ord.compare n m := by
  rw [compare_of_parts (hv.major.trans hw.major.symm) (hv.minor.trans hw.minor.symm)
    (hv.micro.trans hw.micro.symm), hv.qualifier, hw.qualifier, hv.rebuildNumber, hw.rebuildNumber,
    Std.compare_self, Ordering.eq_then]
  rfl

/-- A base is below its rebuilds. If it has a tail of its own, its qualifier is cut short by it. -/
theorem IsRebuildOf.base_lt (hsuffix : suffix ≠ "") (hcompiles : compiles suffix)
    (hv : IsRebuildOf base n v) : (ofString compiles suffix base).compare v = .lt := by
  rw [compare_of_parts ((major_ofString compiles suffix base).trans hv.major.symm)
    ((minor_ofString compiles suffix base).trans hv.minor.symm)
    ((micro_ofString compiles suffix base).trans hv.micro.symm), hv.qualifier, hv.rebuildNumber,
    SuffixedVersion.rebuildNumber, qualifier_ofString, rebuild_ofString]
  by_cases hf : ∃ f : TailSplit suffix.toList (dropDelimiter (numericPrefix base.toList).2),
      f.IsFirst ∧ f.IsNumber
  · -- What stands before its tail is the beginning of what stands before the tail of the rebuild.
    obtain ⟨f, hfirst, hnumber⟩ := hf
    have htail : f.lead ++ (f.matched ++ (f.gap ++ f.digits)) ≠ [] := by
      simp [f.digits_ne_nil]
    have hlt : Ord.compare (String.ofList f.before)
        (String.ofList (dropDelimiter (numericPrefix base.toList).2)) = .lt :=
      (congrArg (fun cs => Ord.compare _ (String.ofList cs)) f.text_eq).trans (compare_append htail)
    rw [splitRebuild_of_isNumber hsuffix hcompiles hfirst hnumber, hlt, Ordering.lt_then]
  · -- Otherwise the qualifiers are the same, and no number is below any.
    rw [splitRebuild_of_not_isNumber fun f hfirst hnumber => hf ⟨f, hfirst, hnumber⟩,
      Std.compare_self, Ordering.eq_then]
    rfl

/-- **The order of rebuilds.** For a suffix with a pattern that compiles, a base is below each of
its rebuilds, and these are ordered by their numbers, with whatever zeros the numbers are written
and in whatever letter case the suffix is. -/
theorem order_rebuilt (compiles : String → Bool) (hbase : '\n' ∉ base.toList)
    (hsuffix : Text.BeginsWithLetter suffix) (hcompiles : compiles suffix)
    (hwritten : Text.sameIgnoringAsciiCase written suffix)
    (hwritten' : Text.sameIgnoringAsciiCase written' suffix) :
    (∀ zeros n, n < 2 ^ 64 →
        order compiles suffix base (rebuilt base written (numeral zeros n)) = .lt) ∧
      (∀ zeros zeros' n m, n < m → m < 2 ^ 64 →
        order compiles suffix (rebuilt base written (numeral zeros n))
          (rebuilt base written' (numeral zeros' m)) = .lt) ∧
      ∀ zeros zeros' n, n < 2 ^ 64 →
        order compiles suffix (rebuilt base written (numeral zeros n))
          (rebuilt base written' (numeral zeros' n)) = .eq := by
  have hread {written : String} (h : Text.sameIgnoringAsciiCase written suffix) (zeros n : Nat)
      (hn : n < 2 ^ 64) :
      IsRebuildOf base n (ofString compiles suffix (rebuilt base written (numeral zeros n))) :=
    isRebuildOf_ofString hbase hsuffix hcompiles h (isRun_numeral zeros n)
      (ofDigitChars_numeral zeros n) hn
  refine ⟨?_, ?_, ?_⟩
  · intro zeros n hn
    exact (hread hwritten zeros n hn).base_lt hsuffix.ne_empty hcompiles
  · intro zeros zeros' n m hnm hm
    have hn := hread hwritten zeros n (hnm.trans hm)
    rw [order, hn.compare_eq (hread hwritten' zeros' m hm)]
    exact Nat.compare_eq_lt.2 hnm
  · intro zeros zeros' n hn
    rw [order, (hread hwritten zeros n hn).compare_eq (hread hwritten' zeros' n hn)]
    exact Nat.compare_eq_eq.2 rfl

/-- A rebuild of a version that is a rebuild itself, with the suffix in two other cases. -/
theorem order_rebuilt_twice :
    rebuilt "1.2.redhat-7" "RedHat" (numeral 3 9) = "1.2.redhat-7.RedHat-0009" ∧
      order (fun _ => true) "redhat" "1.2.redhat-7"
        (rebuilt "1.2.redhat-7" "RedHat" (numeral 3 9)) = .lt ∧
      order (fun _ => true) "redhat" (rebuilt "1.2.redhat-7" "RedHat" (numeral 3 9))
        (rebuilt "1.2.redhat-7" "REDHAT" (numeral 0 10)) = .lt := by
  have hbase : '\n' ∉ "1.2.redhat-7".toList := by decide
  have hsuffix : Text.BeginsWithLetter "redhat" := ⟨'r', "edhat".toList, rfl, rfl⟩
  obtain ⟨hlt, hlt', -⟩ := order_rebuilt (fun _ => true) hbase hsuffix rfl
    (by decide : Text.sameIgnoringAsciiCase "RedHat" "redhat")
    (by decide : Text.sameIgnoringAsciiCase "REDHAT" "redhat")
  exact ⟨by decide +kernel, hlt 3 9 (by decide), hlt' 3 0 9 10 (by decide) (by decide)⟩

end SuffixedVersion

end VersionRules
