import VersionRules.Proofs.Rule.Meaning
import VersionRules.Proofs.Rule.Ranks

/-!
# Which lists of rules are accepted

A list of rules is read from the front, and reading stops at the first rule that is at fault. A rule
is at fault if it is rejected by itself, or if it is the order of version strings alone and other
rules come behind it. The two faults exclude each other, and neither depends on other rules beyond
there being one, so what is wrong with a list is what is wrong with one of its rules.

## Main definitions

* `IsLoneOrder` — the rules that are the order of version strings alone
* `OffendsAt` — what is wrong with one rule of a list

## Main results

* `Ranking.ofRules_singleton_eq_error_iff` — a rule is rejected by itself if it has no rank
* `OffendsAt.unique` — one thing at most is wrong with a rule
* `Ranking.ranksOf_cons_cases` — what reading a list does with its first rule
* `Ranking.ranksOf_verdict` — and, by induction, with all of them
* `ofRules_verdict` — which lists are accepted, and the error of all others
-/

namespace VersionRules

/-- The rule is the order of version strings alone, however it is spelt, and `t` is its token. -/
def IsLoneOrder (rule : String) (t : Token) : Prop :=
  Rank.grammar.tokens rule = .ok [t] ∧ t.kind = .order

/-- What is wrong with the rule at place `i` of a list. -/
inductive OffendsAt (order : StringOrder) (rules : List String) (i : Nat) : RuleError → Prop
  /-- the rule is no rule by itself -/
  | rejected {rule : String} {e : RuleError} (hrule : rules[i]? = some rule)
      (h : Ranking.ofRules order [rule] = .error e) : OffendsAt order rules i e
  /-- the rule leaves nothing to the rules behind it -/
  | notLast {rule : String} {t : Token} (hrule : rules[i]? = some rule) (h : IsLoneOrder rule t)
      (hbehind : i + 1 < rules.length) : OffendsAt order rules i (.atToken .orderNotLast t)

variable {order : StringOrder} {rule : String} {rules : List String} {tokens : List Token}
  {rank : Rank} {ranks : List Rank} {t : Token} {e e' : RuleError} {i : Nat}

/-! ### A rule and those behind it -/

namespace Rank

theorem loneOrder?_eq_some_iff : loneOrder? tokens = some t ↔ tokens = [t] ∧ t.kind = .order := by
  match tokens with
  | [] | _ :: _ :: _ => simp [loneOrder?]
  | [u] =>
    simp only [loneOrder?, Option.ite_none_right_eq_some, Option.some.injEq, List.cons.injEq,
      and_true]
    constructor
    · rintro ⟨hu, rfl⟩
      exact ⟨rfl, hu⟩
    · rintro ⟨rfl, ht⟩
      exact ⟨ht, rfl⟩

/-- The order of version strings alone is a rule by itself. -/
theorem exists_ofRule_of_isLoneOrder (h : IsLoneOrder rule t) (order : StringOrder) :
    ∃ rank, ofRule order rule = .ok rank := by
  obtain ⟨htokens, ht⟩ := h
  have htype : t.type = .order := by rw [Token.type, ht, TokenKind.type]
  obtain ⟨a, ha, hexpression⟩ := (DerivesRule.order htype).exists_parse
  obtain ⟨p, hp, -⟩ := (DerivesRule.order htype).exists_preference (List.cons_ne_nil _ _) order
  refine ⟨⟨rule, [t], a, p⟩, ofRule_eq_ok_iff.2 ⟨htokens, ofTokens_eq_ok_iff.2 ⟨rfl, rfl, ha, ?_⟩⟩⟩
  rw [hexpression]
  exact hp

theorem isLoneOrder_defaultRule : IsLoneOrder defaultRule ⟨0, 14, .order⟩ :=
  ⟨by decide +kernel, rfl⟩

end Rank

namespace Ranking

theorem ranksOf_nil (order : StringOrder) : ∃ ranks, ranksOf order [] = .ok ranks := by
  obtain ⟨rank, hrank⟩ := Rank.exists_ofRule_of_isLoneOrder Rank.isLoneOrder_defaultRule order
  exact ⟨[rank], map_eq_ok_iff.2 ⟨rank, hrank, rfl⟩⟩

/-- What reading a list does with its first rule: it ends with an error, it ends at an order alone,
or the rest is read by itself. -/
theorem ranksOf_cons_cases (order : StringOrder) (rule : String) (rules : List String) :
    (∃ e, Rank.ofRule order rule = .error e ∧ ranksOf order (rule :: rules) = .error e) ∨
      (∃ t rank, IsLoneOrder rule t ∧ Rank.ofRule order rule = .ok rank ∧
        ranksOf order (rule :: rules) =
          if rules = [] then .ok [rank] else .error (.atToken .orderNotLast t)) ∨
      ∃ rank, Rank.ofRule order rule = .ok rank ∧ (∀ t, ¬ IsLoneOrder rule t) ∧
        ranksOf order (rule :: rules) = (ranksOf order rules).map (rank :: ·) := by
  rw [ranksOf, Rank.ofRule]
  cases htokens : Rank.grammar.tokens rule with
  | error e => exact .inl ⟨e, rfl, rfl⟩
  | ok tokens =>
    simp only [bind, Except.bind]
    cases hlone : Rank.loneOrder? tokens with
    | some t =>
      obtain ⟨rfl, ht⟩ := Rank.loneOrder?_eq_some_iff.1 hlone
      have hrule : IsLoneOrder rule t := ⟨htokens, ht⟩
      obtain ⟨rank, hrank⟩ := Rank.exists_ofRule_of_isLoneOrder hrule order
      rw [Rank.ofRule, htokens] at hrank
      have hrank : Rank.ofTokens order rule [t] = .ok rank := hrank
      refine .inr (.inl ⟨t, rank, hrule, hrank, ?_⟩)
      simp only [hrank, List.isEmpty_iff]
      rfl
    | none =>
      cases hrank : Rank.ofTokens order rule tokens with
      | error e => exact .inl ⟨e, rfl, rfl⟩
      | ok rank =>
        refine .inr (.inr ⟨rank, rfl, ?_, ?_⟩)
        · rintro t ⟨hts, ht⟩
          obtain rfl := Except.ok.inj (htokens.symm.trans hts)
          cases hlone.symm.trans (Rank.loneOrder?_eq_some_iff.2 ⟨rfl, ht⟩)
        · cases ranksOf order rules <;> rfl

theorem ofRules_eq_error_iff : ofRules order rules = .error e ↔ ranksOf order rules = .error e :=
  map_eq_error_iff

/-- A rule is rejected by itself exactly if it has no rank, and for the same reason. -/
theorem ofRules_singleton_eq_error_iff :
    ofRules order [rule] = .error e ↔ Rank.ofRule order rule = .error e := by
  rw [ofRules_eq_error_iff]
  obtain ⟨e', he, h⟩ | ⟨t, rank, -, hrank, h⟩ | ⟨rank, hrank, -, h⟩ :=
    ranksOf_cons_cases order rule []
  · rw [he, h, Except.error.injEq, Except.error.injEq]
  · rw [hrank, h, if_pos rfl]
    exact ⟨nofun, nofun⟩
  · -- The default rule is added, and it has a rank.
    obtain ⟨ranks, hranks⟩ := ranksOf_nil order
    rw [hrank, h, hranks]
    exact ⟨nofun, nofun⟩

end Ranking

/-! ### The first rule at fault -/

theorem not_offendsAt_nil : ¬ OffendsAt order [] i e := by
  rintro (⟨hrule, -⟩ | ⟨hrule, -, -⟩) <;> cases hrule

theorem offendsAt_zero_iff : OffendsAt order (rule :: rules) 0 e ↔
    Rank.ofRule order rule = .error e ∨
      rules ≠ [] ∧ ∃ t, IsLoneOrder rule t ∧ e = .atToken .orderNotLast t := by
  constructor
  · rintro (⟨hrule, h⟩ | ⟨hrule, h, hbehind⟩)
    · obtain rfl := Option.some.inj hrule
      exact .inl (Ranking.ofRules_singleton_eq_error_iff.1 h)
    · obtain rfl := Option.some.inj hrule
      refine .inr ⟨?_, _, h, rfl⟩
      rintro rfl
      exact Nat.lt_irrefl _ hbehind
  · rintro (h | ⟨hrules, t, ht, rfl⟩)
    · exact .rejected rfl (Ranking.ofRules_singleton_eq_error_iff.2 h)
    · exact .notLast rfl ht (Nat.succ_lt_succ (List.length_pos_of_ne_nil hrules))

theorem offendsAt_succ_iff :
    OffendsAt order (rule :: rules) (i + 1) e ↔ OffendsAt order rules i e := by
  constructor
  · rintro (⟨hrule, h⟩ | ⟨hrule, h, hbehind⟩)
    · exact .rejected hrule h
    · exact .notLast hrule h (Nat.lt_of_succ_lt_succ hbehind)
  · rintro (⟨hrule, h⟩ | ⟨hrule, h, hbehind⟩)
    · exact .rejected hrule h
    · exact .notLast hrule h (Nat.succ_lt_succ hbehind)

/-- A rule that is not accepted by itself is more than an order, so one thing at most is wrong with
a rule. -/
theorem OffendsAt.unique (h : OffendsAt order rules i e) (h' : OffendsAt order rules i e') :
    e = e' := by
  have hexclude {rule : String} {t : Token} {e : RuleError} (ht : IsLoneOrder rule t)
      (he : Ranking.ofRules order [rule] = .error e) : False := by
    obtain ⟨rank, hrank⟩ := Rank.exists_ofRule_of_isLoneOrder ht order
    cases hrank.symm.trans (Ranking.ofRules_singleton_eq_error_iff.1 he)
  cases h with
  | rejected hrule h =>
    cases h' with
    | rejected hrule' h' =>
      obtain rfl := Option.some.inj (hrule.symm.trans hrule')
      exact Except.error.inj (h.symm.trans h')
    | notLast hrule' ht =>
      obtain rfl := Option.some.inj (hrule.symm.trans hrule')
      exact (hexclude ht h).elim
  | notLast hrule ht =>
    cases h' with
    | rejected hrule' h' =>
      obtain rfl := Option.some.inj (hrule.symm.trans hrule')
      exact (hexclude ht h').elim
    | notLast hrule' ht' =>
      obtain rfl := Option.some.inj (hrule.symm.trans hrule')
      obtain ⟨rfl, -⟩ := List.cons.inj (Except.ok.inj (ht.1.symm.trans ht'.1))
      rfl

namespace Ranking

/-- A list is read to its end if no rule is at fault, and else up to the first rule that is. -/
theorem ranksOf_verdict (order : StringOrder) (rules : List String) :
    (∃ ranks, ranksOf order rules = .ok ranks ∧ ∀ i e, ¬ OffendsAt order rules i e) ∨
      ∃ e i, ranksOf order rules = .error e ∧ OffendsAt order rules i e ∧
        ∀ j < i, ∀ e', ¬ OffendsAt order rules j e' := by
  induction rules with
  | nil =>
    obtain ⟨ranks, hranks⟩ := ranksOf_nil order
    exact .inl ⟨ranks, hranks, fun i e => not_offendsAt_nil⟩
  | cons rule rules ih =>
    obtain ⟨e, he, h⟩ | ⟨t, rank, ht, hrank, h⟩ | ⟨rank, hrank, hlone, h⟩ :=
      ranksOf_cons_cases order rule rules
    · exact .inr ⟨e, 0, h, offendsAt_zero_iff.2 (.inl he), fun j hj => absurd hj j.not_lt_zero⟩
    · by_cases hrules : rules = []
      · subst hrules
        refine .inl ⟨[rank], h, ?_⟩
        intro i e
        cases i with
        | zero =>
          rw [offendsAt_zero_iff, hrank]
          rintro (he | ⟨hne, -⟩)
          · cases he
          · exact hne rfl
        | succ i => exact offendsAt_succ_iff.not.2 not_offendsAt_nil
      · rw [if_neg hrules] at h
        exact .inr ⟨_, 0, h, offendsAt_zero_iff.2 (.inr ⟨hrules, t, ht, rfl⟩),
          fun j hj => absurd hj j.not_lt_zero⟩
    · -- The first rule is not at fault, so the verdict on the others is that on the list.
      have hfirst : ∀ e, ¬ OffendsAt order (rule :: rules) 0 e := by
        intro e
        rw [offendsAt_zero_iff, hrank]
        rintro (he | ⟨-, t, ht, -⟩)
        · cases he
        · exact hlone t ht
      rcases ih with ⟨ranks, hranks, hnone⟩ | ⟨e, i, he, hi, hbefore⟩
      · refine .inl ⟨rank :: ranks, by rw [h, hranks]; rfl, ?_⟩
        intro i e
        cases i with
        | zero => exact hfirst e
        | succ i => exact offendsAt_succ_iff.not.2 (hnone i e)
      · refine .inr ⟨e, i + 1, by rw [h, he]; rfl, offendsAt_succ_iff.2 hi, ?_⟩
        intro j hj e'
        cases j with
        | zero => exact hfirst e'
        | succ j => exact offendsAt_succ_iff.not.2 (hbefore j (Nat.lt_of_succ_lt_succ hj) e')

theorem exists_ofRules_iff :
    (∃ r, ofRules order rules = .ok r) ↔ ∀ i e, ¬ OffendsAt order rules i e := by
  rcases ranksOf_verdict order rules with ⟨ranks, hranks, hnone⟩ | ⟨e, i, he, hi, -⟩
  · exact ⟨fun _ => hnone, fun _ => ⟨⟨order, ranks⟩, map_eq_ok_iff.2 ⟨ranks, hranks, rfl⟩⟩⟩
  · rw [ofRules_eq_error_iff.2 he]
    exact ⟨nofun, fun hnone => absurd hi (hnone i e)⟩

/-- The first rule at fault gives the error of a list. -/
theorem ofRules_eq_error_iff_offendsAt : ofRules order rules = .error e ↔
    ∃ i, OffendsAt order rules i e ∧ ∀ j < i, ∀ e', ¬ OffendsAt order rules j e' := by
  rw [ofRules_eq_error_iff]
  rcases ranksOf_verdict order rules with ⟨ranks, hranks, hnone⟩ | ⟨e', i', he', hi', hbefore'⟩
  · rw [hranks]
    exact ⟨nofun, fun ⟨i, hi, _⟩ => absurd hi (hnone i e)⟩
  · rw [he', Except.error.injEq]
    constructor
    · rintro rfl
      exact ⟨i', hi', hbefore'⟩
    · rintro ⟨i, hi, hbefore⟩
      -- Two rules cannot both be the first one at fault.
      rcases Nat.lt_trichotomy i i' with hlt | rfl | hlt
      · exact absurd hi (hbefore' i hlt e)
      · exact hi'.unique hi
      · exact absurd hi' (hbefore i' hlt e')

end Ranking

/-- **Which lists of rules are accepted.** A list is accepted exactly if every rule is accepted by
itself and none but the last is the order of version strings alone. Otherwise the error is that of
the first rule at fault: its own one if it is rejected by itself, and else that it is not the last
rule. -/
theorem ofRules_verdict (order : StringOrder) (rules : List String) :
    ((∃ r, Ranking.ofRules order rules = .ok r) ↔
        (∀ rule ∈ rules, ∃ r, Ranking.ofRules order [rule] = .ok r) ∧
          ∀ rule ∈ rules.dropLast, ∀ t, ¬ IsLoneOrder rule t) ∧
      (∀ e, Ranking.ofRules order rules = .error e ↔
        ∃ i, OffendsAt order rules i e ∧ ∀ j < i, ∀ e', ¬ OffendsAt order rules j e') ∧
      ∀ t, (RuleError.atToken .orderNotLast t).message =
        "SUFFIX-VERSION is not the last rank." := by
  refine ⟨?_, fun e => Ranking.ofRules_eq_error_iff_offendsAt, fun t => rfl⟩
  rw [Ranking.exists_ofRules_iff]
  constructor
  · intro hnone
    constructor
    · intro rule hrule
      obtain ⟨i, hi⟩ := List.getElem?_of_mem hrule
      cases hr : Ranking.ofRules order [rule] with
      | ok r => exact ⟨r, rfl⟩
      | error e => exact absurd (.rejected hi hr) (hnone i e)
    · intro rule hrule t ht
      obtain ⟨i, hi⟩ := List.getElem?_of_mem hrule
      have hlt : i < rules.dropLast.length := (List.getElem?_eq_some_iff.1 hi).1
      rw [List.getElem?_dropLast] at hi
      rw [List.length_dropLast] at hlt
      have hat := (Option.ite_none_right_eq_some.1 hi).2
      exact hnone i _ (.notLast hat ht (by omega))
  · rintro ⟨halone, hlone⟩ i e (⟨hrule, h⟩ | ⟨hrule, h, hbehind⟩)
    · obtain ⟨r, hr⟩ := halone _ (List.mem_of_getElem? hrule)
      cases hr.symm.trans h
    · refine hlone _ (List.mem_of_getElem? (i := i) ?_) _ h
      rw [List.getElem?_dropLast, if_pos (by omega), hrule]

/-- The second rule is at fault before the third one, which is no rule, is read. -/
example : (Ranking.ofRules .natural ["TYPE:jar", "suffix_version", "BUILD:"]).map (fun _ => ()) =
    .error (.atToken .orderNotLast ⟨0, 14, .order⟩) := by
  decide +kernel

end VersionRules
