import VersionRules.Proofs.Except
import VersionRules.Rule.Ranking

/-!
# The ranks of a ranking

Every rank of a ranking comes from a rule of its own: the rule is split into tokens, the tokens have
a tree, and the tree stands for the preference of the rank. A tree stands for a preference of one of
three kinds.

## Main results

* `Tree.preference_forms`, `Tree.preference_cases` — the trees that stand for a preference, and the
  three kinds of it
* `Rank.ofTokens_eq_ok_iff`, `Rank.ofRule_eq_ok_iff` — what a rank consists of
* `Ranking.exists_ofRule_of_mem` — every rank is that of a rule
* `Ranking.exists_preference_of_mem` — and its preference is that of a tree
* `Ranking.compare_eq_eq_iff` — candidates of equal rank
-/

namespace VersionRules

variable {order : StringOrder} {rule : String} {rules : List String} {tokens : List Token}
  {ranks : List Rank} {rank : Rank} {p : Preference}

namespace Tree

/-- The trees that stand for a preference: an order alone, a condition, and a condition that is
sorted. -/
theorem preference_forms {tree : Tree} (h : tree.preference order = .ok p) :
    (∃ t, tree = .leaf t ∧ t.kind = .order ∧ p = .byVersion order) ∨
      (∃ c, tree.condition = .ok c ∧ p = .byCondition c) ∨
      ∃ s left right c, tree = .binary s left right ∧ s.kind = .sortBy ∧ left.condition = .ok c ∧
        p = .byConditionThenVersion c order := by
  cases tree with
  | missing | root | group => cases h
  | leaf t =>
    simp only [preference] at h
    split at h
    · next ht => exact .inl ⟨t, rfl, ht, (Except.ok.inj h).symm⟩
    · next q words ht =>
      refine .inr (.inl ⟨.term q words, ?_, (Except.ok.inj h).symm⟩)
      simp only [condition, ht]
    · cases h
  | binary t left right =>
    simp only [preference] at h
    split at h
    · obtain ⟨c, hc, rfl⟩ := map_eq_ok_iff.1 h
      exact .inr (.inl ⟨c, hc, rfl⟩)
    · obtain ⟨c, hc, rfl⟩ := map_eq_ok_iff.1 h
      exact .inr (.inl ⟨c, hc, rfl⟩)
    · next ht =>
      split at h
      · cases h
      · obtain ⟨-, -, h⟩ := bind_eq_ok_iff.1 h
        obtain ⟨c, hc, rfl⟩ := map_eq_ok_iff.1 h
        exact .inr (.inr ⟨t, left, right, c, rfl, ht, hc, rfl⟩)
    · cases h

/-- Every preference that a tree stands for is of one of the three kinds. -/
theorem preference_cases {tree : Tree} (h : tree.preference order = .ok p) :
    p = .byVersion order ∨ (∃ c, p = .byCondition c) ∨
      ∃ c, p = .byConditionThenVersion c order := by
  obtain ⟨t, -, -, hp⟩ | ⟨c, -, hp⟩ | ⟨s, left, right, c, -, -, -, hp⟩ := preference_forms h
  · exact .inl hp
  · exact .inr (.inl ⟨c, hp⟩)
  · exact .inr (.inr ⟨c, hp⟩)

end Tree

namespace Rank

theorem ofTokens_eq_ok_iff :
    ofTokens order rule tokens = .ok rank ↔
      rank.rule = rule ∧ rank.tokens = tokens ∧ parse tokens = .ok rank.arena ∧
        rank.arena.expression.preference order = .ok rank.preference := by
  obtain ⟨rule', tokens', arena, preference⟩ := rank
  simp only [ofTokens, bind_eq_ok_iff, pure, Except.pure, Except.ok.injEq, mk.injEq]
  constructor
  · rintro ⟨a, ha, p, hp, rfl, rfl, rfl, rfl⟩
    exact ⟨rfl, rfl, ha, hp⟩
  · rintro ⟨rfl, rfl, ha, hp⟩
    exact ⟨arena, ha, preference, hp, rfl, rfl, rfl, rfl⟩

theorem ofRule_eq_ok_iff :
    ofRule order rule = .ok rank ↔
      grammar.tokens rule = .ok rank.tokens ∧ ofTokens order rule rank.tokens = .ok rank := by
  rw [ofRule, bind_eq_ok_iff]
  constructor
  · rintro ⟨tokens, htokens, hrank⟩
    obtain rfl := (ofTokens_eq_ok_iff.1 hrank).2.1
    exact ⟨htokens, hrank⟩
  · rintro ⟨htokens, hrank⟩
    exact ⟨_, htokens, hrank⟩

end Rank

namespace Ranking

/-- Every rank is that of a rule, be it one of the list or the default one. -/
theorem exists_ofRule_of_mem_ranksOf (h : ranksOf order rules = .ok ranks) (hrank : rank ∈ ranks) :
    ∃ rule, (rule ∈ rules ∨ rule = Rank.defaultRule) ∧ Rank.ofRule order rule = .ok rank := by
  induction rules generalizing ranks with
  | nil =>
    obtain ⟨default, hdefault, rfl⟩ := map_eq_ok_iff.1 h
    obtain rfl := List.mem_singleton.1 hrank
    exact ⟨_, .inr rfl, hdefault⟩
  | cons rule rules ih =>
    obtain ⟨tokens, htokens, h⟩ := bind_eq_ok_iff.1 h
    -- A rank that is made of the tokens of the first rule is the rank of this rule.
    have hfirst {r : Rank} (hr : Rank.ofTokens order rule tokens = .ok r) :
        ∃ rule', (rule' ∈ rule :: rules ∨ rule' = Rank.defaultRule) ∧
          Rank.ofRule order rule' = .ok r :=
      ⟨rule, .inl List.mem_cons_self, bind_eq_ok_iff.2 ⟨tokens, htokens, hr⟩⟩
    split at h
    · -- An order alone is the last rule, so its rank is the only one.
      split at h
      · obtain ⟨first, hranks, rfl⟩ := map_eq_ok_iff.1 h
        obtain rfl := List.mem_singleton.1 hrank
        exact hfirst hranks
      · cases h
    · obtain ⟨first, hr, h⟩ := bind_eq_ok_iff.1 h
      obtain ⟨others, hothers, rfl⟩ := map_eq_ok_iff.1 h
      rcases List.mem_cons.1 hrank with rfl | hrank
      · exact hfirst hr
      · obtain ⟨rule', hrule', hr'⟩ := ih hothers hrank
        exact ⟨rule', hrule'.imp_left (List.mem_cons_of_mem rule), hr'⟩

theorem exists_ofRule_of_mem {r : Ranking} (h : ofRules order rules = .ok r)
    (hrank : rank ∈ r.ranks) :
    ∃ rule, (rule ∈ rules ∨ rule = Rank.defaultRule) ∧ Rank.ofRule order rule = .ok rank := by
  obtain ⟨ranks, hranks, rfl⟩ := map_eq_ok_iff.1 h
  exact exists_ofRule_of_mem_ranksOf hranks hrank

/-- Candidates are of equal rank exactly if no rule tells them apart. -/
theorem compare_eq_eq_iff {r : Ranking} {v w : Candidate} :
    r.compare v w = .eq ↔ ∀ rank ∈ r.ranks, rank.preference v w = .eq := by
  rw [compare]
  induction r.ranks with
  | nil => exact iff_of_true rfl nofun
  | cons rank ranks ih =>
    rw [List.forall_mem_cons, ← ih]
    exact Ordering.then_eq_eq

/-- Every comparison that a ranking asks is the preference of a tree, for the same order
throughout. -/
theorem exists_preference_of_mem {r : Ranking} (h : ofRules order rules = .ok r)
    (hp : p ∈ r.ranks.map Rank.preference) : ∃ tree : Tree, tree.preference order = .ok p := by
  obtain ⟨rank, hrank, rfl⟩ := List.mem_map.1 hp
  obtain ⟨rule, -, hrule⟩ := exists_ofRule_of_mem h hrank
  have htokens := (Rank.ofRule_eq_ok_iff.1 hrule).2
  exact ⟨_, (Rank.ofTokens_eq_ok_iff.1 htokens).2.2.2⟩

end Ranking

end VersionRules
