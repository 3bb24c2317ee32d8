import VersionRules.Proofs.Rule.Completion
import VersionRules.Proofs.Rule.Spelling

/-!
# The default ranking

There are two ways to tell that a ranking is the default rule alone. While rules are read, a rule is
recognised by its token, so that every spelling of the order of version strings will do. Afterwards
the text of the rule is compared with the canonical spelling. Both agree on the empty list and on
the canonical spelling; a ranking of one rule that is spelt otherwise consists of the default rule,
but does not count as the default.

## Main results

* `Completes.length_eq_one_iff` — the lists of rules that give a ranking of one rule
* `isDefault_iff_canonical` — which of these rankings count as the default
* `not_isDefault_iff_length` — not all of them do
-/

namespace VersionRules

variable {order : StringOrder} {rules : List String} {ranks : List Rank}

/-- A ranking of one rule is read from the empty list, or from one spelling of the order. -/
theorem Completes.length_eq_one_iff (h : Completes order rules ranks) :
    ranks.length = 1 ↔ rules = [] ∨ ∃ rule, rules = [rule] ∧ SpellsOrder rule := by
  cases h with
  | default => exact iff_of_true rfl (.inl rfl)
  | last hlone => exact iff_of_true rfl (.inr ⟨_, rfl, exists_isLoneOrder_iff.1 ⟨_, hlone⟩⟩)
  | @cons rule rules rank ranks hlone _ hrest =>
    obtain ⟨others, last, rfl, -, -⟩ := hrest.exists_last
    refine iff_of_false (by simp) ?_
    rintro (hnil | ⟨rule', hrules, hspells⟩)
    · cases hnil
    · obtain ⟨rfl, rfl⟩ := List.cons.inj hrules
      obtain ⟨t, ht⟩ := exists_isLoneOrder_iff.2 hspells
      exact hlone t ht

/-- Only the canonical spelling counts as the default. -/
theorem Ranking.isDefault_iff_rules {r : Ranking} (h : ofRules order rules = .ok r) :
    r.isDefault ↔ rules = [] ∨ rules = [Rank.defaultRule] := by
  obtain ⟨ranks, hranks, rfl⟩ := map_eq_ok_iff.1 h
  obtain ⟨hends, hopen⟩ := (ranksOf_eq_ok_iff.1 hranks).map_rule
  rw [isDefault, beq_iff_eq, Ranking.rules]
  by_cases horder : EndsInOrder rules
  · rw [hends horder]
    refine (or_iff_right ?_).symm
    rintro rfl
    exact not_endsInOrder_nil horder
  · rw [hopen horder]
    constructor
    · intro hrules
      left
      simpa using hrules
    · rintro (rfl | rfl)
      · rfl
      · exact absurd (endsInOrder_singleton Rank.isLoneOrder_defaultRule) horder

/-- **The default ranking.** A ranking of one rule consists of the order of version strings alone,
and is read from no rule at all or from one that spells this order, in whatever way. It counts as
the default only if there was no rule or the rule had the canonical spelling; so the length tells
the default exactly as long as no other spelling is used. -/
theorem isDefault_iff_canonical {r : Ranking} (h : Ranking.ofRules order rules = .ok r) :
    (r.ranks.length = 1 ↔ ∃ rank, r.ranks = [rank] ∧ rank.IsOrder) ∧
      (r.ranks.length = 1 ↔ rules = [] ∨ ∃ rule, rules = [rule] ∧ SpellsOrder rule) ∧
      (r.isDefault ↔ r.ranks.length = 1 ∧ ∀ rule ∈ rules, rule = Rank.defaultRule) := by
  have hdefault := Ranking.isDefault_iff_rules h
  obtain ⟨ranks, hranks, rfl⟩ := map_eq_ok_iff.1 h
  have hcompletes := Ranking.ranksOf_eq_ok_iff.1 hranks
  refine ⟨?_, hcompletes.length_eq_one_iff, ?_⟩
  · constructor
    · intro hlength
      obtain ⟨others, last, hlast, hisOrder, -⟩ := hcompletes.exists_last
      refine ⟨last, ?_, hisOrder⟩
      rw [hlast, List.length_append, List.length_singleton] at hlength
      rw [hlast, List.eq_nil_of_length_eq_zero (Nat.succ.inj hlength), List.nil_append]
    · rintro ⟨rank, hrank, -⟩
      rw [hrank, List.length_singleton]
  · rw [hdefault, hcompletes.length_eq_one_iff]
    constructor
    · rintro (rfl | rfl)
      · exact ⟨.inl rfl, nofun⟩
      · refine ⟨.inr ⟨Rank.defaultRule, rfl, ?_⟩, List.forall_mem_singleton.2 rfl⟩
        exact exists_isLoneOrder_iff.1 ⟨_, Rank.isLoneOrder_defaultRule⟩
    · rintro ⟨hnil | ⟨rule, hrule, -⟩, hall⟩
      · exact .inl hnil
      · right
        rw [hrule, hall rule (hrule ▸ List.mem_singleton_self rule)]

/-- A long s is an `S` too; a list of this rule alone is one rule, and not the default. -/
theorem isDefault_iff_canonical_folded :
    ∃ r, Ranking.ofRules .natural [" ſuffix_version "] = .ok r ∧ r.ranks.length = 1 ∧
      r.isDefault = false := by
  obtain ⟨r, hr⟩ := exists_eq_ok_of_isOk
    (x := Ranking.ofRules .natural [" ſuffix_version "]) (by decide +kernel)
  have hspells : SpellsOrder " ſuffix_version " := by
    have hspace : ∀ x ∈ [' '], Text.isSpace x := List.forall_mem_singleton.2 rfl
    exact ⟨[' '], "ſuffix_version".toList, [' '], by decide +kernel, hspace, hspace,
      by decide +kernel⟩
  obtain ⟨-, hlength, hdefault⟩ := isDefault_iff_canonical hr
  refine ⟨r, hr, hlength.2 (.inr ⟨_, rfl, hspells⟩), ?_⟩
  rw [Bool.eq_false_iff]
  intro hr
  have hrule := (hdefault.1 hr).2 _ (List.mem_singleton_self _)
  exact absurd hrule (by decide)

/-- So the length of a ranking does not tell whether it counts as the default. -/
theorem not_isDefault_iff_length :
    ¬ ∀ order rules r, Ranking.ofRules order rules = .ok r →
      (r.isDefault ↔ r.ranks.length = 1) := by
  intro hall
  obtain ⟨r, hr⟩ := exists_eq_ok_of_isOk
    (x := Ranking.ofRules .natural ["suffix_version"]) (by decide +kernel)
  have hlength : (Ranking.ofRules .natural ["suffix_version"]).map (·.ranks.length) = .ok 1 := by
    decide +kernel
  rw [hr] at hlength
  have hdefault := (hall _ _ _ hr).2 (Except.ok.inj hlength)
  rcases (Ranking.isDefault_iff_rules hr).1 hdefault with hnil | hrule
  · cases hnil
  · exact absurd hrule (by decide)

end VersionRules
