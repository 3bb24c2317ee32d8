import VersionRules.Version.Suffixed

/-!
# The tail of a version

A text can end in the suffix and decimal digits in several ways: the suffix may occur more than
once, and the delimiters before and behind it may be taken as part of the tail or not. The reader
tries one place after the other, and at each place a delimiter first. So it finds the way that
leaves the least before the tail, and among those the one with a delimiter.

## Main definitions

* `TailSplit` — one way to read a tail at the end of a text
* `TailSplit.IsFirst` — the way that leaves the least before the tail

## Main results

* `TailSplit.IsFirst.unique`, `TailSplit.exists_isFirst` — there is one first way, if there is any
* `tail?_cases` — the reader finds it, or there is no way at all
* `TailSplit.IsFirst.tail?_eq` — what is read is the first way
-/

namespace VersionRules.SuffixedVersion

variable {suffix cs rest matched matched' digits gap gap' : List Char} {c d : Char}

/-- At most one delimiter. -/
inductive IsGap : List Char → Prop
  | none : IsGap []
  | one {d : Char} (hd : isDelimiter d) : IsGap [d]

/-- The text ends in the suffix and decimal digits. Both may have a delimiter before them, the
suffix may differ in letter case, and no line feed stands before the tail. -/
@[ext]
structure TailSplit (suffix text : List Char) where
  before : List Char
  lead : List Char
  matched : List Char
  gap : List Char
  digits : List Char
  text_eq : text = before ++ (lead ++ (matched ++ (gap ++ digits)))
  newline_notMem : '\n' ∉ before
  isGap_lead : IsGap lead
  fold_matched : matched.map Text.fold = suffix.map Text.fold
  isGap_gap : IsGap gap
  digits_ne_nil : digits ≠ []
  isDecimalDigit : ∀ c ∈ digits, Text.isDecimalDigit c

/-! ### Delimiters -/

theorem IsGap.length_le (h : IsGap gap) : gap.length ≤ 1 := by
  cases h <;> simp

theorem isDecimalDigit_eq_false_of_isDelimiter (h : isDelimiter d) :
    Text.isDecimalDigit d = false := by
  simp only [isDelimiter, Bool.or_eq_true, beq_iff_eq] at h
  rcases h with (rfl | rfl) | rfl <;> decide

/-- Dropping a delimiter splits off at most one, and none only if there is none. -/
theorem exists_isGap_dropDelimiter (cs : List Char) :
    ∃ gap, IsGap gap ∧ cs = gap ++ dropDelimiter cs ∧
      ∀ gap' rest, IsGap gap' → cs = gap' ++ rest → gap'.length ≤ gap.length := by
  cases cs with
  | nil =>
    refine ⟨[], .none, rfl, ?_⟩
    intro gap' rest _ h
    exact Nat.le_of_eq (congrArg List.length (List.append_eq_nil_iff.1 h.symm).1)
  | cons c cs =>
    rw [dropDelimiter]
    by_cases hc : isDelimiter c
    · refine ⟨[c], .one hc, by rw [if_pos hc]; rfl, ?_⟩
      intro gap' rest hgap' _
      exact hgap'.length_le
    · refine ⟨[], .none, by rw [if_neg hc]; rfl, ?_⟩
      intro gap' rest hgap' h
      cases hgap' with
      | none => exact Nat.le_refl _
      | one hd => exact absurd ((List.cons.inj h).1 ▸ hd) hc

/-- Digits are what is left behind a delimiter, if there was one. -/
theorem IsGap.dropDelimiter_append (h : IsGap gap) (hne : digits ≠ [])
    (hdigits : ∀ c ∈ digits, Text.isDecimalDigit c) : dropDelimiter (gap ++ digits) = digits := by
  cases h with
  | none =>
    obtain ⟨c, cs, rfl⟩ := List.exists_cons_of_ne_nil hne
    have hc : ¬ isDelimiter c := by
      intro hc
      have hdigit := hdigits c List.mem_cons_self
      rw [isDecimalDigit_eq_false_of_isDelimiter hc] at hdigit
      cases hdigit
    exact if_neg hc
  | one hd => exact if_pos hd

/-! ### The suffix and the digits -/

theorem splitFolded?_eq_some_iff :
    splitFolded? suffix cs = some (matched, rest) ↔
      cs = matched ++ rest ∧ matched.map Text.fold = suffix.map Text.fold := by
  induction suffix generalizing cs matched with
  | nil =>
    rw [splitFolded?, Option.some_inj, Prod.mk.injEq, List.map_nil, List.map_eq_nil_iff]
    constructor
    · rintro ⟨rfl, rfl⟩
      exact ⟨rfl, rfl⟩
    · rintro ⟨rfl, rfl⟩
      exact ⟨rfl, rfl⟩
  | cons s ss ih =>
    constructor
    · intro h
      cases cs with
      | nil => cases h
      | cons c cs =>
        rw [splitFolded?] at h
        obtain ⟨hfold, h⟩ := Option.ite_none_right_eq_some.1 h
        obtain ⟨⟨matched', rest'⟩, hsplit, hcons⟩ := Option.map_eq_some_iff.1 h
        obtain ⟨rfl, rfl⟩ := Prod.mk.inj hcons
        obtain ⟨rfl, hmatched⟩ := ih.1 hsplit
        exact ⟨rfl, by rw [List.map_cons, List.map_cons, hfold, hmatched]⟩
    · rintro ⟨rfl, hfold⟩
      cases matched with
      | nil => cases hfold
      | cons c matched =>
        obtain ⟨hc, hmatched⟩ := List.cons.inj hfold
        rw [List.cons_append, splitFolded?, if_pos hc.symm, ih.2 ⟨rfl, hmatched⟩]
        rfl

theorem suffixAndDigits?_eq_some_iff :
    suffixAndDigits? suffix cs = some (matched, digits) ↔
      ∃ gap, cs = matched ++ (gap ++ digits) ∧ matched.map Text.fold = suffix.map Text.fold ∧
        IsGap gap ∧ digits ≠ [] ∧ ∀ c ∈ digits, Text.isDecimalDigit c := by
  constructor
  · intro h
    unfold suffixAndDigits? at h
    split at h
    · next matched' rest hsplit =>
      obtain ⟨hdigits, h⟩ := Option.ite_none_right_eq_some.1 h
      obtain ⟨rfl, rfl⟩ := Prod.mk.inj (Option.some.inj h)
      obtain ⟨hcs, hmatched⟩ := splitFolded?_eq_some_iff.1 hsplit
      obtain ⟨gap, hgap, hrest, -⟩ := exists_isGap_dropDelimiter rest
      simp only [Bool.and_eq_true, Bool.not_eq_true', List.isEmpty_eq_false_iff,
        List.all_eq_true] at hdigits
      exact ⟨gap, by rw [← hrest, hcs], hmatched, hgap, hdigits⟩
    · cases h
  · rintro ⟨gap, hcs, hmatched, hgap, hne, hdigits⟩
    rw [suffixAndDigits?, splitFolded?_eq_some_iff.2 ⟨hcs, hmatched⟩]
    simp only [hgap.dropDelimiter_append hne hdigits]
    rw [if_pos]
    simpa [hne] using hdigits

namespace TailSplit

variable {text : List Char}

/-- No other way leaves less before the tail, or as little without taking a delimiter that this one
does not take. -/
def IsFirst (f : TailSplit suffix text) : Prop :=
  ∀ g : TailSplit suffix text, f.before.length < g.before.length ∨
    f.before.length = g.before.length ∧ g.lead.length ≤ f.lead.length

theorem length_matched (f : TailSplit suffix text) : f.matched.length = suffix.length := by
  simpa using congrArg List.length f.fold_matched

/-- There is at most one first way to read a tail. -/
theorem IsFirst.unique {f g : TailSplit suffix text} (hf : f.IsFirst) (hg : g.IsFirst) : f = g := by
  have hlengths : f.before.length = g.before.length ∧ f.lead.length = g.lead.length := by
    have hfg := hf g
    have hgf := hg f
    omega
  have htext := f.text_eq.symm.trans g.text_eq
  obtain ⟨hbefore, htext⟩ := List.append_inj htext hlengths.1
  obtain ⟨hlead, htext⟩ := List.append_inj htext hlengths.2
  obtain ⟨hmatched, htext⟩ :=
    List.append_inj htext (f.length_matched.trans g.length_matched.symm)
  have hdigits : f.digits = g.digits := by
    have hdrop := congrArg dropDelimiter htext
    rwa [f.isGap_gap.dropDelimiter_append f.digits_ne_nil f.isDecimalDigit,
      g.isGap_gap.dropDelimiter_append g.digits_ne_nil g.isDecimalDigit] at hdrop
  have hgap : f.gap = g.gap := List.append_cancel_right (hdigits ▸ htext)
  exact TailSplit.ext hbefore hlead hmatched hgap hdigits

/-- One more character before a tail. -/
def cons (hc : c ≠ '\n') (f : TailSplit suffix text) : TailSplit suffix (c :: text) :=
  { f with
    before := c :: f.before
    text_eq := congrArg (c :: ·) f.text_eq
    newline_notMem := List.not_mem_cons_of_ne_of_not_mem hc.symm f.newline_notMem }

/-- One character less before a tail. -/
theorem exists_eq_cons (f : TailSplit suffix (c :: text)) (hbefore : f.before ≠ []) :
    ∃ (hc : c ≠ '\n') (g : TailSplit suffix text), f = g.cons hc := by
  obtain ⟨before, lead, matched, gap, digits, htext, hnewline, hlead, hmatched, hgap, hne,
    hdigits⟩ := f
  obtain ⟨x, before, rfl⟩ := List.exists_cons_of_ne_nil hbefore
  obtain ⟨rfl, htail⟩ := List.cons.inj htext
  exact ⟨(List.ne_of_not_mem_cons hnewline).symm, ⟨before, lead, matched, gap, digits, htail,
    List.not_mem_of_not_mem_cons hnewline, hlead, hmatched, hgap, hne, hdigits⟩, rfl⟩

theorem suffixAndDigits?_eq_some (f : TailSplit suffix text) {rest : List Char}
    (h : text = f.before ++ (f.lead ++ rest)) :
    suffixAndDigits? suffix rest = some (f.matched, f.digits) := by
  rw [suffixAndDigits?_eq_some_iff]
  refine ⟨f.gap, ?_, f.fold_matched, f.isGap_gap, f.digits_ne_nil, f.isDecimalDigit⟩
  exact List.append_cancel_left (List.append_cancel_left (h.symm.trans f.text_eq))

/-- A tail that makes up the whole text begins with a delimiter or with the suffix. -/
theorem suffixAndDigits?_of_before (f : TailSplit suffix text) (hbefore : f.before = []) :
    suffixAndDigits? suffix (dropDelimiter text) = some (f.matched, f.digits) ∨
      f.lead = [] ∧ suffixAndDigits? suffix text = some (f.matched, f.digits) := by
  have hlead := f.isGap_lead
  have htext := f.text_eq
  rw [hbefore, List.nil_append] at htext
  generalize hl : f.lead = lead at hlead htext
  cases hlead with
  | none => exact .inr ⟨rfl, f.suffixAndDigits?_eq_some (by rw [hbefore, hl]; rfl)⟩
  | @one d hd =>
    have hdrop : text = d :: dropDelimiter text := by
      rw [htext, List.singleton_append, dropDelimiter, if_pos hd]
    exact .inl (f.suffixAndDigits?_eq_some (by rw [hbefore, hl]; exact hdrop))

/-- Among the ways that leave nothing before the tail, one is the first that takes a delimiter if
another one does. -/
theorem isFirst_of_before (f : TailSplit suffix text) (hbefore : f.before = [])
    (h : ∀ g : TailSplit suffix text, g.before = [] → g.lead.length ≤ f.lead.length) :
    f.IsFirst := by
  intro g
  rw [hbefore]
  by_cases hg : g.before = []
  · exact .inr ⟨by rw [hg], h g hg⟩
  · exact .inl (List.length_pos_iff.2 hg)

end TailSplit

/-! ### Finding the first way -/

/-- At one place, a tail is tried with a delimiter first. -/
theorem tailHere?_cases (suffix cs : List Char) :
    (∃ f : TailSplit suffix cs, f.before = [] ∧ f.IsFirst ∧
        tailHere? suffix cs = some (f.matched, f.digits)) ∨
      (∀ f : TailSplit suffix cs, f.before ≠ []) ∧ tailHere? suffix cs = none := by
  cases hfirst : suffixAndDigits? suffix (dropDelimiter cs) with
  | some tail =>
    -- If there is a delimiter, it is taken, and no other way takes more.
    obtain ⟨matched, digits⟩ := tail
    obtain ⟨gap, hrest, hmatched, hgap, hne, hdigits⟩ := suffixAndDigits?_eq_some_iff.1 hfirst
    obtain ⟨lead, hlead, hcs, hmax⟩ := exists_isGap_dropDelimiter cs
    rw [hrest] at hcs
    refine .inl ⟨⟨[], lead, matched, gap, digits, hcs, List.not_mem_nil, hlead, hmatched, hgap, hne,
      hdigits⟩, rfl, ?_, by rw [tailHere?, hfirst]; rfl⟩
    apply TailSplit.isFirst_of_before
    · rfl
    · intro g hg
      have htext := g.text_eq
      rw [hg, List.nil_append] at htext
      exact hmax g.lead _ g.isGap_lead htext
  | none =>
    cases hsecond : suffixAndDigits? suffix cs with
    | some tail =>
      -- A way that takes a delimiter would have been found before.
      obtain ⟨matched, digits⟩ := tail
      obtain ⟨gap, hrest, hmatched, hgap, hne, hdigits⟩ := suffixAndDigits?_eq_some_iff.1 hsecond
      refine .inl ⟨⟨[], [], matched, gap, digits, hrest, List.not_mem_nil, .none, hmatched, hgap,
        hne, hdigits⟩, rfl, ?_, by rw [tailHere?, hfirst, hsecond]; rfl⟩
      apply TailSplit.isFirst_of_before
      · rfl
      · intro g hg
        rcases g.suffixAndDigits?_of_before hg with hdrop | ⟨hlead, -⟩
        · cases hfirst.symm.trans hdrop
        · exact Nat.le_of_eq (congrArg List.length hlead)
    | none =>
      refine .inr ⟨?_, by rw [tailHere?, hfirst, hsecond]; rfl⟩
      intro f hbefore
      rcases f.suffixAndDigits?_of_before hbefore with hdrop | ⟨-, hwhole⟩
      · cases hfirst.symm.trans hdrop
      · cases hsecond.symm.trans hwhole

/-- The reader finds the first way to read a tail, or there is no way. -/
theorem tail?_cases (suffix cs : List Char) :
    (∃ f : TailSplit suffix cs, f.IsFirst ∧
        tail? suffix cs = some (f.before, f.matched, f.digits)) ∨
      ¬ Nonempty (TailSplit suffix cs) ∧ tail? suffix cs = none := by
  induction cs with
  | nil =>
    refine .inr ⟨?_, rfl⟩
    rintro ⟨f⟩
    have htext := f.text_eq
    simp only [List.nil_eq, List.append_eq_nil_iff] at htext
    exact f.digits_ne_nil htext.2.2.2.2
  | cons c cs ih =>
    rcases tailHere?_cases suffix (c :: cs) with ⟨f, hbefore, hfirst, hhere⟩ | ⟨hbefore, hhere⟩
    · exact .inl ⟨f, hfirst, by rw [tail?, hhere, hbefore]⟩
    · rw [tail?, hhere]
      by_cases hc : c = '\n'
      · refine .inr ⟨?_, if_pos hc⟩
        rintro ⟨f⟩
        obtain ⟨hne, -⟩ := f.exists_eq_cons (hbefore f)
        exact hne hc
      · simp only [if_neg hc]
        -- Every tail begins further on, and is a tail of the rest as well.
        rcases ih with ⟨f, hfirst, htail⟩ | ⟨hnone, htail⟩
        · refine .inl ⟨f.cons hc, ?_, by rw [htail]; rfl⟩
          intro g
          obtain ⟨-, g, rfl⟩ := g.exists_eq_cons (hbefore g)
          exact (hfirst g).imp Nat.succ_lt_succ (And.imp_left (congrArg Nat.succ))
        · refine .inr ⟨?_, by rw [htail]; rfl⟩
          rintro ⟨f⟩
          obtain ⟨-, g, -⟩ := f.exists_eq_cons (hbefore f)
          exact hnone ⟨g⟩

/-- If there is a way to read a tail, there is a first one. -/
theorem TailSplit.exists_isFirst (f : TailSplit suffix cs) :
    ∃ g : TailSplit suffix cs, g.IsFirst := by
  rcases tail?_cases suffix cs with ⟨g, hg, -⟩ | ⟨hnone, -⟩
  · exact ⟨g, hg⟩
  · exact absurd ⟨f⟩ hnone

theorem TailSplit.IsFirst.tail?_eq {f : TailSplit suffix cs} (hf : f.IsFirst) :
    tail? suffix cs = some (f.before, f.matched, f.digits) := by
  rcases tail?_cases suffix cs with ⟨g, hg, htail⟩ | ⟨hnone, -⟩
  · rw [htail, hg.unique hf]
  · exact absurd ⟨f⟩ hnone

end VersionRules.SuffixedVersion
