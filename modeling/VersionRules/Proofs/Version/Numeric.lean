import VersionRules.Proofs.Text.Characters
import VersionRules.Version.Suffixed

/-!
# The numeric parts of a version

At the start of a version stand up to three runs of digits with single delimiters between them. They
are read one after the other, as long as another one follows. What is read is the longest text of
this form that the version begins with; there is only one, as a delimiter is no digit.

## Main definitions

* `SpellsRuns` — the texts that are runs of digits with single delimiters between them
* `IsNumericPrefix` — the longest such text with at most three runs, and what follows it
* `StopsRuns` — the texts that no numeric part goes on into

## Main results

* `isNumericPrefix_numericPrefix` — it is what is read
* `IsNumericPrefix.unique` — and nothing else is
* `StopsRuns.numericPrefix_append` — what is appended leaves the numeric parts alone
-/

namespace VersionRules.SuffixedVersion

variable {cs p p' rest rest' run run' : List Char} {runs runs' : List (List Char)} {c d : Char}
  {count : Nat}

/-- At least one digit, and nothing but digits. -/
structure IsRun (run : List Char) : Prop where
  ne_nil : run ≠ []
  isDigit : ∀ c ∈ run, c.isDigit

/-- Runs of digits with a delimiter before each of them. -/
inductive SpellsFurther : List (List Char) → List Char → Prop
  | nil : SpellsFurther [] []
  | cons {d : Char} {run p : List Char} {runs : List (List Char)} (hd : isDelimiter d)
      (hrun : IsRun run) (h : SpellsFurther runs p) : SpellsFurther (run :: runs) (d :: (run ++ p))

/-- Runs of digits with single delimiters between them. -/
inductive SpellsRuns : List (List Char) → List Char → Prop
  | nil : SpellsRuns [] []
  | cons {run p : List Char} {runs : List (List Char)} (hrun : IsRun run)
      (h : SpellsFurther runs p) : SpellsRuns (run :: runs) (run ++ p)

/-- The longest text of at most three runs that a text begins with, and what follows it. -/
structure IsNumericPrefix (cs : List Char) (runs : List (List Char)) (rest : List Char) : Prop where
  exists_text : ∃ p, SpellsRuns runs p ∧ cs = p ++ rest
  length_le : runs.length ≤ 3
  longest : ∀ runs' p' rest', SpellsRuns runs' p' → runs'.length ≤ 3 → cs = p' ++ rest' →
    rest.length ≤ rest'.length

/-! ### Delimiters and digits -/

theorem isDigit_eq_false_of_isDelimiter (h : isDelimiter d) : d.isDigit = false := by
  simp only [isDelimiter, Bool.or_eq_true, beq_iff_eq] at h
  rcases h with (rfl | rfl) | rfl <;> rfl

/-- Behind a run stands the end or a delimiter. -/
theorem SpellsFurther.head? (h : SpellsFurther runs p) : ∀ c ∈ p.head?, c.isDigit = false := by
  cases h with
  | nil => exact nofun
  | cons hd => simpa using isDigit_eq_false_of_isDelimiter hd

/-- A text is cut in one way only behind the digits at its start. -/
theorem IsRun.append_inj (hrun : IsRun run) (hrun' : IsRun run')
    (hp : ∀ c ∈ p.head?, c.isDigit = false) (hp' : ∀ c ∈ p'.head?, c.isDigit = false)
    (h : run ++ p = run' ++ p') : run = run' ∧ p = p' := by
  obtain ⟨htake, hdrop⟩ := Text.takeWhile_dropWhile_append hrun.isDigit hp
  obtain ⟨htake', hdrop'⟩ := Text.takeWhile_dropWhile_append hrun'.isDigit hp'
  rw [h] at htake hdrop
  exact ⟨htake.symm.trans htake', hdrop.symm.trans hdrop'⟩

/-- A text is at most one list of runs. -/
theorem SpellsFurther.unique (h : SpellsFurther runs p) (h' : SpellsFurther runs' p) :
    runs = runs' := by
  induction h generalizing runs' with
  | nil =>
    cases h'
    rfl
  | @cons d run p runs _ hrun hfurther ih =>
    generalize hq : d :: (run ++ p) = q at h'
    cases h' with
    | nil => cases hq
    | cons _ hrun' hfurther' =>
      obtain ⟨rfl, htext⟩ := List.cons.inj hq
      obtain ⟨rfl, rfl⟩ := hrun.append_inj hrun' hfurther.head? hfurther'.head? htext
      rw [ih hfurther']

theorem SpellsRuns.unique (h : SpellsRuns runs p) (h' : SpellsRuns runs' p) : runs = runs' := by
  cases h with
  | nil =>
    generalize hq : [] = q at h'
    cases h' with
    | nil => rfl
    | cons hrun' => exact absurd (List.append_eq_nil_iff.1 hq.symm).1 hrun'.ne_nil
  | @cons run p runs hrun hfurther =>
    generalize hq : run ++ p = q at h'
    cases h' with
    | nil => exact absurd (List.append_eq_nil_iff.1 hq).1 hrun.ne_nil
    | cons hrun' hfurther' =>
      obtain ⟨rfl, rfl⟩ := hrun.append_inj hrun' hfurther.head? hfurther'.head? hq
      rw [hfurther.unique hfurther']

/-! ### Reading the runs -/

/-- The digits at the start of a text are a run, if there are any. -/
theorem isRun_takeWhile (h : cs.takeWhile Char.isDigit ≠ []) : IsRun (cs.takeWhile Char.isDigit) :=
  ⟨h, List.all_eq_true.1 List.all_takeWhile⟩

/-- The runs that are read, each behind its delimiter. -/
theorem exists_spellsFurther (count : Nat) (cs : List Char) :
    ∃ p, SpellsFurther (furtherRuns count cs).1 p ∧ cs = p ++ (furtherRuns count cs).2 ∧
      (furtherRuns count cs).1.length ≤ count := by
  fun_induction furtherRuns count cs with
  | case1 cs => exact ⟨[], .nil, rfl, Nat.le_refl _⟩
  | case2 count => exact ⟨[], .nil, rfl, Nat.zero_le _⟩
  | case3 count d cs run hfurther runs rest hrest ih =>
    rw [hrest] at ih
    obtain ⟨p, hp, hcs, hlength⟩ := ih
    simp only [Bool.and_eq_true, Bool.not_eq_true', List.isEmpty_eq_false_iff] at hfurther
    refine ⟨d :: (run ++ p), .cons hfurther.1 (isRun_takeWhile hfurther.2) hp, ?_, ?_⟩
    · rw [List.cons_append, List.append_assoc, ← hcs, List.takeWhile_append_dropWhile]
    · exact Nat.succ_le_succ hlength
  | case4 count d cs => exact ⟨[], .nil, rfl, Nat.zero_le _⟩

theorem length_furtherRuns_le (count : Nat) (cs : List Char) :
    (furtherRuns count cs).2.length ≤ cs.length := by
  obtain ⟨p, -, hcs, -⟩ := exists_spellsFurther count cs
  have := congrArg List.length hcs
  rw [List.length_append] at this
  omega

/-- Behind a delimiter all digits are passed, and reading goes on. -/
theorem furtherRuns_cons (hd : isDelimiter d) (h : cs.takeWhile Char.isDigit ≠ []) :
    furtherRuns (count + 1) (d :: cs) =
      (cs.takeWhile Char.isDigit :: (furtherRuns count (cs.dropWhile Char.isDigit)).1,
        (furtherRuns count (cs.dropWhile Char.isDigit)).2) := by
  rw [furtherRuns, hd, List.isEmpty_eq_false_iff.2 h]
  rfl

/-- Where no delimiter with a digit behind it stands, nothing is read. -/
theorem furtherRuns_of_stops (h : isDelimiter d → cs.takeWhile Char.isDigit = []) :
    furtherRuns (count + 1) (d :: cs) = ([], d :: cs) := by
  refine if_neg ?_
  rw [Bool.and_eq_true, Bool.not_eq_true', List.isEmpty_eq_false_iff]
  rintro ⟨hd, hdigits⟩
  exact hdigits (h hd)

/-- Where a run may have been cut short, no text of further runs reaches beyond what is read behind
all of its digits. -/
theorem SpellsFurther.length_le (h : SpellsFurther runs p) (hcount : runs.length ≤ count) :
    (furtherRuns count ((p ++ rest).dropWhile Char.isDigit)).2.length ≤ rest.length := by
  induction h generalizing count with
  | nil =>
    -- Only here can digits be left that belong to the run before.
    have hread := length_furtherRuns_le count (rest.dropWhile Char.isDigit)
    exact Nat.le_trans hread (List.dropWhile_sublist _).length_le
  | @cons d run p runs hd hrun hfurther ih =>
    obtain ⟨count, rfl⟩ := Nat.exists_eq_add_one_of_ne_zero (Nat.ne_zero_of_lt hcount)
    have hhead : ¬ d.isDigit = true := by simp [isDigit_eq_false_of_isDelimiter hd]
    have hdigits : (run ++ (p ++ rest)).takeWhile Char.isDigit ≠ [] := by
      rw [List.takeWhile_append_of_pos hrun.isDigit]
      exact List.append_ne_nil_of_left_ne_nil hrun.ne_nil _
    rw [List.cons_append, List.append_assoc, List.dropWhile_cons_of_neg hhead,
      furtherRuns_cons hd hdigits, List.dropWhile_append_of_pos hrun.isDigit]
    exact ih (Nat.le_of_succ_le_succ hcount)

/-! ### The numeric prefix -/

theorem numericPrefix_of_digits (h : cs.takeWhile Char.isDigit ≠ []) :
    numericPrefix cs =
      (cs.takeWhile Char.isDigit :: (furtherRuns 2 (cs.dropWhile Char.isDigit)).1,
        (furtherRuns 2 (cs.dropWhile Char.isDigit)).2) := by
  rw [numericPrefix, List.isEmpty_eq_false_iff.2 h]
  rfl

theorem numericPrefix_of_no_digit (h : cs.takeWhile Char.isDigit = []) :
    numericPrefix cs = ([], cs) := by
  rw [numericPrefix, h]
  rfl

/-- What is read is the numeric prefix. -/
theorem isNumericPrefix_numericPrefix (cs : List Char) :
    IsNumericPrefix cs (numericPrefix cs).1 (numericPrefix cs).2 := by
  by_cases h : cs.takeWhile Char.isDigit = []
  · -- Without a digit at its start, a text begins with no runs at all.
    rw [numericPrefix_of_no_digit h]
    refine ⟨⟨[], .nil, rfl⟩, Nat.zero_le _, ?_⟩
    rintro runs' p' rest' hspells - rfl
    cases hspells with
    | nil => exact Nat.le_refl _
    | cons hrun' =>
      rw [List.append_assoc, List.takeWhile_append_of_pos hrun'.isDigit] at h
      exact absurd (List.append_eq_nil_iff.1 h).1 hrun'.ne_nil
  · rw [numericPrefix_of_digits h]
    obtain ⟨p, hp, hcs, hlength⟩ := exists_spellsFurther 2 (cs.dropWhile Char.isDigit)
    refine ⟨⟨_, .cons (isRun_takeWhile h) hp, ?_⟩, Nat.succ_le_succ hlength, ?_⟩
    · rw [List.append_assoc, ← hcs, List.takeWhile_append_dropWhile]
    · rintro runs' p' rest' hspells hlength' rfl
      cases hspells with
      | nil =>
        have hread := length_furtherRuns_le 2 (rest'.dropWhile Char.isDigit)
        exact Nat.le_trans hread (List.dropWhile_sublist _).length_le
      | cons hrun' hfurther' =>
        rw [List.append_assoc, List.dropWhile_append_of_pos hrun'.isDigit]
        exact hfurther'.length_le (Nat.le_of_succ_le_succ hlength')

/-- A text has one numeric prefix. -/
theorem IsNumericPrefix.unique (h : IsNumericPrefix cs runs rest)
    (h' : IsNumericPrefix cs runs' rest') : runs = runs' ∧ rest = rest' := by
  obtain ⟨p, hp, hcs⟩ := h.exists_text
  obtain ⟨p', hp', hcs'⟩ := h'.exists_text
  have hlength : rest.length = rest'.length :=
    Nat.le_antisymm (h.longest _ _ _ hp' h'.length_le hcs') (h'.longest _ _ _ hp h.length_le hcs)
  obtain ⟨rfl, rfl⟩ := List.append_inj' (hcs.symm.trans hcs') hlength
  exact ⟨hp.unique hp', rfl⟩

/-! ### Texts behind the numeric prefix -/

/-- The text begins neither with a digit nor with a delimiter and a digit. -/
structure StopsRuns (cs : List Char) : Prop where
  head_not_digit : ∀ c ∈ cs.head?, c.isDigit = false
  second_not_digit : ∀ d rest, cs = d :: rest → isDelimiter d → ∀ c ∈ rest.head?, c.isDigit = false

/-- Digits end where such a text begins. -/
theorem StopsRuns.takeWhile_dropWhile (h : StopsRuns rest) (cs : List Char) :
    (cs ++ rest).takeWhile Char.isDigit = cs.takeWhile Char.isDigit ∧
      (cs ++ rest).dropWhile Char.isDigit = cs.dropWhile Char.isDigit ++ rest := by
  induction cs with
  | nil => exact Text.takeWhile_dropWhile_of_head? h.head_not_digit
  | cons c cs ih =>
    obtain ⟨htake, hdrop⟩ := ih
    by_cases hc : c.isDigit
    · rw [List.cons_append, List.takeWhile_cons_of_pos hc, List.takeWhile_cons_of_pos hc,
        List.dropWhile_cons_of_pos hc, List.dropWhile_cons_of_pos hc, htake, hdrop]
      exact ⟨rfl, rfl⟩
    · rw [List.cons_append, List.takeWhile_cons_of_neg hc, List.takeWhile_cons_of_neg hc,
        List.dropWhile_cons_of_neg hc, List.dropWhile_cons_of_neg hc]
      exact ⟨rfl, rfl⟩

theorem StopsRuns.furtherRuns_append (h : StopsRuns rest) (count : Nat) (cs : List Char) :
    furtherRuns count (cs ++ rest) =
      ((furtherRuns count cs).1, (furtherRuns count cs).2 ++ rest) := by
  fun_induction furtherRuns count cs with
  | case1 cs => rw [furtherRuns]
  | case2 count =>
    cases rest with
    | nil => rfl
    | cons d tl =>
      refine furtherRuns_of_stops fun hd => ?_
      exact (Text.takeWhile_dropWhile_of_head? (h.second_not_digit d tl rfl hd)).1
  | case3 count d cs run hfurther runs rest' hread ih =>
    obtain ⟨htake, hdrop⟩ := h.takeWhile_dropWhile cs
    simp only [Bool.and_eq_true, Bool.not_eq_true', List.isEmpty_eq_false_iff] at hfurther
    rw [List.cons_append, furtherRuns_cons hfurther.1 (by rw [htake]; exact hfurther.2), htake,
      hdrop, ih, hread]
  | case4 count d cs run hstops =>
    obtain ⟨htake, -⟩ := h.takeWhile_dropWhile cs
    refine furtherRuns_of_stops fun hd => htake.trans ?_
    refine Decidable.byContradiction fun hne => hstops ?_
    rw [hd, Bool.true_and, Bool.not_eq_true', List.isEmpty_eq_false_iff]
    exact hne

/-- What is appended behind the numeric parts is part of the rest. -/
theorem StopsRuns.numericPrefix_append (h : StopsRuns rest) (cs : List Char) :
    numericPrefix (cs ++ rest) = ((numericPrefix cs).1, (numericPrefix cs).2 ++ rest) := by
  obtain ⟨htake, hdrop⟩ := h.takeWhile_dropWhile cs
  by_cases hcs : cs.takeWhile Char.isDigit = []
  · rw [numericPrefix_of_no_digit hcs, numericPrefix_of_no_digit (htake.trans hcs)]
  · have hcs' : (cs ++ rest).takeWhile Char.isDigit ≠ [] := by rwa [htake]
    rw [numericPrefix_of_digits hcs, numericPrefix_of_digits hcs', htake, hdrop,
      h.furtherRuns_append]

end VersionRules.SuffixedVersion
