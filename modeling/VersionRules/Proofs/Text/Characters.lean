import VersionRules.Text.Case
import VersionRules.Text.Digit
import VersionRules.Text.Folding
import VersionRules.Text.Space

/-!
# Kinds of characters

Letters, digits and white space are different characters. For ASCII letters and digits this is
plain from their codes; decimal digits of other scripts lie beyond all white space, or in the gaps
between its characters. Some marks have a meaning in rules; they are neither letters nor digits, and
like white space they have no case.

## Main definitions

* `Text.isPlain` — neither white space nor one of the marks that can end a word

## Main results

* `Text.isAlpha_iff_toNat`, `Text.isAlphanum_iff_toNat` — letters and digits by their codes
* `Text.isSpace_eq_false_of_isAlphanum`, `Text.isSpace_eq_false_of_isDecimalDigit` — neither is
  white space
* `Text.upperChar_of_isSpace` — white space is left alone by the change to upper case
* `Text.isPlain_of_upper`, `Text.isPlain_of_keyword` — what is plain in upper case was so before
* `Text.fold_toLower` — case folding makes no difference between the cases of a letter
* `Text.takeWhile_dropWhile_append` — where a run of characters of one kind ends
-/

namespace VersionRules.Text

variable {c : Char} {cs ds : List Char} {word : String}

/-! ### Runs of characters -/

/-- A text that begins with another kind of character has no run of this kind at its start. -/
theorem takeWhile_dropWhile_of_head? {p : Char → Bool} (h : ∀ c ∈ cs.head?, p c = false) :
    cs.takeWhile p = [] ∧ cs.dropWhile p = cs := by
  cases cs with
  | nil => exact ⟨rfl, rfl⟩
  | cons c cs =>
    have hc : ¬p c = true := by simp [h c rfl]
    exact ⟨List.takeWhile_cons_of_neg hc, List.dropWhile_cons_of_neg hc⟩

/-- A run of characters of a kind ends where a text begins with another kind. -/
theorem takeWhile_dropWhile_append {p : Char → Bool} (hcs : ∀ c ∈ cs, p c)
    (hds : ∀ c ∈ ds.head?, p c = false) :
    (cs ++ ds).takeWhile p = cs ∧ (cs ++ ds).dropWhile p = ds := by
  obtain ⟨htake, hdrop⟩ := takeWhile_dropWhile_of_head? hds
  rw [List.takeWhile_append_of_pos hcs, List.dropWhile_append_of_pos hcs, htake, hdrop,
    List.append_nil]
  exact ⟨rfl, rfl⟩

/-! ### Letters and digits -/

/-- The codes of ASCII letters. -/
theorem isAlpha_iff_toNat : c.isAlpha ↔
    0x41 ≤ c.toNat ∧ c.toNat ≤ 0x5A ∨ 0x61 ≤ c.toNat ∧ c.toNat ≤ 0x7A := by
  have hupper : c.isUpper ↔ 0x41 ≤ c.toNat ∧ c.toNat ≤ 0x5A := decide_eq_true_iff
  have hlower : c.isLower ↔ 0x61 ≤ c.toNat ∧ c.toNat ≤ 0x7A :=
    Bool.and_eq_true_iff.trans (and_congr decide_eq_true_iff decide_eq_true_iff)
  exact Bool.or_eq_true_iff.trans (or_congr hupper hlower)

/-- The codes of ASCII letters and digits. -/
theorem isAlphanum_iff_toNat : c.isAlphanum ↔
    (0x41 ≤ c.toNat ∧ c.toNat ≤ 0x5A ∨ 0x61 ≤ c.toNat ∧ c.toNat ≤ 0x7A) ∨
      0x30 ≤ c.toNat ∧ c.toNat ≤ 0x39 :=
  Bool.or_eq_true_iff.trans (or_congr isAlpha_iff_toNat Char.isDigit_iff_toNat)

theorem not_isAlpha_of_isDigit (h : c.isDigit) : ¬c.isAlpha := by
  have hcode : 0x30 ≤ c.toNat ∧ c.toNat ≤ 0x39 := Char.isDigit_iff_toNat.1 h
  rw [isAlpha_iff_toNat]
  omega

theorem toUpper_of_not_isAlpha (h : ¬c.isAlpha) : c.toUpper = c := by
  have hlower : ¬('a'.val ≤ c.val ∧ c.val ≤ 'z'.val) := fun hlower =>
    h (isAlpha_iff_toNat.2 (.inr hlower))
  exact dif_neg hlower

/-! ### Lower case -/

/-- Only 26 characters have a lower case in ASCII. -/
theorem toLower_cases (c : Char) : c.toLower = c ∨ ∃ i < 26, c = Char.ofNat (0x41 + i) := by
  by_cases h : c.isUpper
  · obtain ⟨hfirst, hlast⟩ : 0x41 ≤ c.toNat ∧ c.toNat ≤ 0x5A := decide_eq_true_iff.1 h
    refine .inr ⟨c.toNat - 0x41, by omega, ?_⟩
    rw [Nat.add_sub_cancel' hfirst, Char.ofNat_toNat]
  · exact .inl (dif_neg fun hcode => h (decide_eq_true_iff.2 hcode))

/-- Case folding makes no difference between the cases of a letter in ASCII. -/
theorem fold_toLower (c : Char) : fold c.toLower = fold c := by
  rcases toLower_cases c with h | ⟨i, hi, rfl⟩
  · rw [h]
  · revert i
    decide +kernel

theorem map_fold_of_sameIgnoringAsciiCase {s t : String} (h : sameIgnoringAsciiCase s t) :
    s.toList.map fold = t.toList.map fold := by
  have hlower := congrArg (List.map fold) (beq_iff_eq.1 h)
  simpa only [List.map_map, Function.comp_def, fold_toLower] using hlower

/-! ### White space -/

theorem isSpace_eq_false_of_isAlphanum (h : c.isAlphanum) : isSpace c = false := by
  rw [isAlphanum_iff_toNat] at h
  simp only [isSpace, Bool.or_eq_false_iff, Bool.and_eq_false_iff, decide_eq_false_iff_not,
    beq_eq_false_iff_ne]
  omega

/-- The digits of a script lie between two of the characters that are white space. -/
theorem digitZeros_cases : ∀ z ∈ digitZeros,
    z = 0x30 ∨ 0x660 ≤ z ∧ z + 10 ≤ 0x1680 ∨ 0x1680 < z ∧ z + 10 ≤ 0x2000 ∨ 0x3000 < z := by
  decide

theorem isSpace_eq_false_of_isDecimalDigit (h : isDecimalDigit c) : isSpace c = false := by
  obtain ⟨z, hz, hc⟩ := List.any_eq_true.1 h
  have hcases := digitZeros_cases z hz
  simp only [Bool.and_eq_true, decide_eq_true_eq] at hc
  simp only [isSpace, Bool.or_eq_false_iff, Bool.and_eq_false_iff, decide_eq_false_iff_not,
    beq_eq_false_iff_ne]
  omega

/-- White space has no case. -/
theorem upperChar_of_isSpace (h : isSpace c) : upperChar c = [c] := by
  unfold upperChar
  split
  case h_11 =>
    have halpha : ¬c.isAlpha := by
      intro halpha
      have halnum : c.isAlphanum := Bool.or_eq_true_iff.2 (.inl halpha)
      exact absurd h (by simp [isSpace_eq_false_of_isAlphanum halnum])
    rw [toUpper_of_not_isAlpha halpha]
  -- Each of the characters that the map lists is a letter.
  all_goals revert h; decide

/-- A text consists of what is left without the white space at its end, and of this white space. -/
theorem exists_trimEnd_append (cs : List Char) :
    ∃ space, cs = trimEnd cs ++ space ∧ (∀ c ∈ space, isSpace c) ∧
      ∀ c ∈ (trimEnd cs).getLast?, isSpace c = false := by
  refine ⟨(cs.reverse.takeWhile isSpace).reverse, ?_, ?_, ?_⟩
  · rw [trimEnd, ← List.reverse_append, List.takeWhile_append_dropWhile, List.reverse_reverse]
  · intro c hc
    exact List.all_eq_true.1 List.all_takeWhile c (List.mem_reverse.1 hc)
  · intro c hc
    rw [trimEnd, List.getLast?_reverse] at hc
    have hstop := List.head?_dropWhile_not isSpace cs.reverse
    rw [hc] at hstop
    exact hstop

/-! ### Marks -/

/-- The characters other than white space that can end a word: quotes, and single characters with a
meaning of their own. -/
def marks : List Char :=
  ['"', '\'', ':', '(', ')', ',']

/-- The characters that are neither white space nor marks. -/
def isPlain (c : Char) : Bool :=
  !isSpace c && !marks.contains c

theorem isPlain_iff : isPlain c ↔ isSpace c = false ∧ c ∉ marks := by
  simp [isPlain]

theorem isSpace_eq_false_of_isPlain (h : isPlain c) : isSpace c = false :=
  (isPlain_iff.1 h).1

theorem isPlain_of_isAlphanum (h : c.isAlphanum) : isPlain c := by
  have hmarks : ∀ d ∈ marks, (!d.isAlphanum) = true := List.all_eq_true.1 rfl
  refine isPlain_iff.2 ⟨isSpace_eq_false_of_isAlphanum h, fun hc => ?_⟩
  simpa [h] using hmarks c hc

/-- The decimal digits of other scripts lie beyond all marks. -/
theorem isPlain_of_isDecimalDigit (h : isDecimalDigit c) : isPlain c := by
  refine isPlain_iff.2 ⟨isSpace_eq_false_of_isDecimalDigit h, fun hc => ?_⟩
  obtain ⟨z, hz, hrange⟩ := List.any_eq_true.1 h
  have hcases := digitZeros_cases z hz
  have hmarks : ∀ d ∈ marks, (d.toNat < 0x30 || d.toNat == 0x3A) = true := List.all_eq_true.1 rfl
  have hcode := hmarks c hc
  simp only [Bool.and_eq_true, Bool.or_eq_true, decide_eq_true_eq, beq_iff_eq] at hrange hcode
  omega

/-- White space and marks have no case. -/
theorem upperChar_of_not_isPlain (h : ¬isPlain c) : upperChar c = [c] := by
  by_cases hspace : isSpace c
  · exact upperChar_of_isSpace hspace
  · have hmarks : ∀ d ∈ marks, (upperChar d == [d]) = true := List.all_eq_true.1 rfl
    have hmem : c ∈ marks := by
      refine Decidable.byContradiction fun hc => h (isPlain_iff.2 ⟨?_, hc⟩)
      simpa using hspace
    exact beq_iff_eq.1 (hmarks c hmem)

/-- A text is plain if it is so in upper case. -/
theorem isPlain_of_upper (h : ∀ c ∈ (upper word).toList, isPlain c) :
    ∀ c ∈ word.toList, isPlain c := by
  intro c hc
  by_cases hplain : isPlain c
  · exact hplain
  · -- A mark or white space would still be there.
    have hself : c ∈ upperChar c := by
      rw [upperChar_of_not_isPlain hplain]
      exact List.mem_singleton_self c
    refine h c ?_
    rw [upper, String.toList_ofList]
    exact List.mem_flatMap_of_mem hc hself

theorem isPlain_of_keyword (h : ∀ c ∈ (keyword word).toList, isPlain c) :
    ∀ c ∈ word.toList, isPlain c := by
  refine isPlain_of_upper fun c hc => ?_
  by_cases hdash : c = '-'
  · exact hdash ▸ rfl
  · refine h c ?_
    rw [keyword, replaceChar, String.toList_ofList]
    exact List.mem_map.2 ⟨c, hc, if_neg hdash⟩

end VersionRules.Text
