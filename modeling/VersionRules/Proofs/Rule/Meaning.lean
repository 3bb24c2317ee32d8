import VersionRules.Proofs.Except
import VersionRules.Proofs.Rule.Infix
import VersionRules.Proofs.Token.Types
import VersionRules.Rule.Filter
import VersionRules.Rule.Ranking

/-!
# What parses has a meaning

The trees that are read from lists of tokens have no gaps: every operator has both operands, and
what is under it is what it asks for. So the only accepted list without a preference is the empty
one, and the only ones without a condition are the empty one and those with an order among their
tokens. A query has no orders in it, because its grammar has none.

## Main definitions

* `RuleError.emptyRule` — the error about a rule without tokens

## Main results

* `Derives.type_ne_order` — a derived condition has no order among its tokens
* `DerivesRule.exists_condition_iff`, `DerivesRule.exists_preference_iff` — which rules have a
  condition, and which a preference
* `parse_has_meaning` — the same for accepted lists, with the errors that are left
-/

namespace VersionRules

variable {k : Stratum} {ts : List Token} {tree : Tree} {a : Arena} {e : RuleError}
  {order : StringOrder}

/-- A rule has no tokens. -/
def RuleError.emptyRule : RuleError :=
  ⟨.emptyRule, .unknown⟩

/-! ### Derived conditions -/

theorem Derives.ne_nil (h : Derives k ts tree) : ts ≠ [] := by
  induction h with
  | term | parens => exact List.cons_ne_nil _ _
  | atom _ ih | conj _ ih => exact ih
  | and | or => simp

/-- A derived condition has no order among its tokens. -/
theorem Derives.type_ne_order (h : Derives k ts tree) : ∀ t ∈ ts, t.type ≠ .order := by
  induction h with
  | term ht =>
    refine List.forall_mem_singleton.2 ?_
    rw [ht]
    decide
  | parens hl _ hr ih =>
    refine List.forall_mem_cons.2 ⟨?_, List.forall_mem_append.2 ⟨ih, ?_⟩⟩
    · rw [hl]
      decide
    · refine List.forall_mem_singleton.2 ?_
      rw [hr]
      decide
  | atom _ ih | conj _ ih => exact ih
  | and _ hop _ ihus ihvs =>
    refine List.forall_mem_append.2 ⟨ihus, List.forall_mem_cons.2 ⟨?_, ihvs⟩⟩
    rw [Token.type, hop]
    decide
  | or _ hop _ ihus ihvs =>
    refine List.forall_mem_append.2 ⟨ihus, List.forall_mem_cons.2 ⟨?_, ihvs⟩⟩
    rw [Token.type]
    rcases hop with hop | hop <;> rw [hop] <;> decide

/-! ### Rules -/

/-- The tree of a rule stands for a condition unless the rule is empty or asks for an order. -/
theorem DerivesRule.exists_condition_iff (h : DerivesRule ts tree) :
    (∃ c, tree.condition = .ok c) ↔ ts ≠ [] ∧ ∀ t ∈ ts, t.type ≠ .order := by
  cases h with
  | empty => exact ⟨fun ⟨c, hc⟩ => (by cases hc), fun h => absurd rfl h.1⟩
  | @order o ho =>
    constructor
    · rintro ⟨c, hc⟩
      rw [Tree.condition, kind_of_type_order ho] at hc
      cases hc
    · rintro ⟨-, hno⟩
      exact absurd ho (hno o (List.mem_singleton_self o))
  | condition hts =>
    obtain ⟨c, hc, -⟩ := hts.exists_condition
    exact ⟨fun _ => ⟨hts.ne_nil, hts.type_ne_order⟩, fun _ => ⟨c, hc⟩⟩
  | @sorted us left s o hus hs ho =>
    constructor
    · rintro ⟨c, hc⟩
      rw [Tree.condition, kind_of_type_sortBy hs] at hc
      split at hc <;> cases hc
    · rintro ⟨-, hno⟩
      exact absurd ho (hno o (by simp))

theorem DerivesRule.exists_preference_iff (h : DerivesRule ts tree) (order : StringOrder) :
    (∃ p, tree.preference order = .ok p) ↔ ts ≠ [] := by
  constructor
  · rintro ⟨p, hp⟩ rfl
    obtain rfl := h.unique .empty
    cases hp
  · intro hts
    obtain ⟨p, hp, -⟩ := h.exists_preference hts order
    exact ⟨p, hp⟩

/-! ### Accepted lists -/

theorem expression_of_parse_nil (h : parse [] = .ok a) : a.expression = .missing :=
  (derivesRule_of_parse h).unique .empty

/-- Of an accepted list, no other error is left to a preference than that it is empty. -/
theorem eq_emptyRule_of_preference (h : parse ts = .ok a)
    (he : a.expression.preference order = .error e) : e = .emptyRule := by
  by_cases hts : ts = []
  · subst hts
    rw [expression_of_parse_nil h] at he
    exact (Except.error.inj he).symm
  · obtain ⟨p, hp⟩ := ((derivesRule_of_parse h).exists_preference_iff order).2 hts
    cases he.symm.trans hp

theorem eq_emptyRule_of_condition (h : parse ts = .ok a) (hno : ∀ t ∈ ts, t.type ≠ .order)
    (he : a.expression.condition = .error e) : e = .emptyRule := by
  by_cases hts : ts = []
  · subst hts
    rw [expression_of_parse_nil h] at he
    exact (Except.error.inj he).symm
  · obtain ⟨c, hc⟩ := (derivesRule_of_parse h).exists_condition_iff.2 ⟨hts, hno⟩
    cases he.symm.trans hc

/-- There are no orders in a query. -/
theorem Filter.type_ne_order {query : String} (h : Filter.grammar.tokens query = .ok ts) :
    ∀ t ∈ ts, t.type ≠ .order := by
  intro t ht horder
  have hallows := Grammar.allows_of_mem_tokens h t ht
  rw [horder] at hallows
  exact absurd hallows (by decide)

/-- **What parses has a meaning.** An accepted list of tokens has a preference unless it is empty,
and a condition unless it is empty or has an order among its tokens. The empty list is accepted, and
has neither. So no other error is left for the rules of a ranking, and for the query of a filter. -/
theorem parse_has_meaning :
    (∀ ts a, parse ts = .ok a →
        (∀ order, (∃ p, a.expression.preference order = .ok p) ↔ ts ≠ []) ∧
          ((∃ c, a.expression.condition = .ok c) ↔ ts ≠ [] ∧ ∀ t ∈ ts, t.type ≠ .order)) ∧
      (∃ a, parse [] = .ok a ∧
        (∀ order, a.expression.preference order = .error .emptyRule) ∧
          a.expression.condition = .error .emptyRule) ∧
      RuleError.emptyRule.text = "Empty rule is not allowed." ∧
      (∀ rule ts a order e, Rank.grammar.tokens rule = .ok ts → parse ts = .ok a →
        a.expression.preference order = .error e → e = .emptyRule) ∧
      ∀ query ts a e, Filter.grammar.tokens query = .ok ts → parse ts = .ok a →
        a.expression.condition = .error e → e = .emptyRule := by
  refine ⟨?_, ⟨.empty, rfl, fun _ => rfl, rfl⟩, by decide, ?_, ?_⟩
  · intro ts a h
    have hderives := derivesRule_of_parse h
    exact ⟨hderives.exists_preference_iff, hderives.exists_condition_iff⟩
  · intro rule ts a order e _ h he
    exact eq_emptyRule_of_preference h he
  · intro query ts a e htokens h he
    exact eq_emptyRule_of_condition h (Filter.type_ne_order htokens) he

/-- A sorted rule has a preference and no condition, and a blank query has neither. -/
theorem parse_has_meaning_sorted :
    (∃ ts a, Rank.grammar.tokens "BUILD:1 SORT_BY SUFFIX-VERSION" = .ok ts ∧ parse ts = .ok a ∧
        (∃ p, a.expression.preference .natural = .ok p) ∧
          ¬ ∃ c, a.expression.condition = .ok c) ∧
      ∃ ts a e, Filter.grammar.tokens " \t" = .ok ts ∧ parse ts = .ok a ∧
        a.expression.condition = .error e ∧ e = .emptyRule := by
  obtain ⟨hmeaning, -, -, -, hquery⟩ := parse_has_meaning
  constructor
  · have htokens : Rank.grammar.tokens "BUILD:1 SORT_BY SUFFIX-VERSION" =
        .ok [⟨0, 7, .qualifier .build ["1"]⟩, ⟨8, 15, .sortBy⟩, ⟨16, 30, .order⟩] := by
      decide +kernel
    obtain ⟨a, ha⟩ := exists_eq_ok_of_isOk
      (x := parse [⟨0, 7, .qualifier .build ["1"]⟩, ⟨8, 15, .sortBy⟩, ⟨16, 30, .order⟩]) (by decide)
    obtain ⟨hpreference, hcondition⟩ := hmeaning _ a ha
    refine ⟨_, a, htokens, ha, (hpreference .natural).2 (List.cons_ne_nil _ _), ?_⟩
    intro h
    exact (hcondition.1 h).2 ⟨16, 30, .order⟩ (by decide) rfl
  · have htokens : Filter.grammar.tokens " \t" = .ok [] := by decide +kernel
    exact ⟨[], .empty, .emptyRule, htokens, rfl, rfl, hquery _ _ _ _ htokens rfl rfl⟩

end VersionRules
