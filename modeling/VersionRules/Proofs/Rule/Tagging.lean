import VersionRules.Proofs.Rule.Ranks
import VersionRules.Rule.Filter

/-!
# Tags never hurt

No rule asks for the absence of a value. A condition that a candidate meets is therefore still met
when it is tagged with one more value, and whatever ranking it is compared under, the candidate does
not fall behind another one that it was above of or equal to. Nothing is asked of the order of
version strings, since tags do not change them.

## Main definitions

* `AtMost` — the order `lt`, `eq`, `gt` of verdicts
* `Candidate.Extends` — one candidate has all the tags of another one of the same version
* `Preference.RewardsTags` — further tags never make a candidate worse

## Main results

* `Condition.holds_of_extends` — a condition that is met stays met
* `Preference.rewardsTags_foldr` — asking one preference after the other
* `tagging_never_hurts` — one more value under rankings and filters
-/

namespace VersionRules

/-- The order `lt`, `eq`, `gt` of verdicts. -/
def AtMost : Ordering → Ordering → Prop
  | .lt, _ => True
  | .eq, o => o ≠ .lt
  | .gt, o => o = .gt

variable {a a' b b' : Ordering} {v v' w : Candidate} {q : Qualifier} {words : List String}
  {c : Condition} {order : StringOrder} {rules : List String} {r : Ranking} {p : Preference}

theorem AtMost.refl (a : Ordering) : AtMost a a := by
  cases a with
  | lt => exact trivial
  | eq => exact fun h => nomatch h
  | gt => rfl

/-- A verdict gets no worse if neither the first word on it nor the second does. -/
theorem AtMost.then (ha : AtMost a a') (hb : AtMost b b') :
    AtMost (a.then b) (a'.then b') := by
  cases a with
  | lt => exact trivial
  | eq =>
    -- The second word counts only as long as the first one has not become better.
    cases a' with
    | lt => exact absurd rfl ha
    | eq => exact hb
    | gt => cases b <;> simp [AtMost, Ordering.then]
  | gt =>
    obtain rfl : a' = .gt := ha
    rfl

/-! ### Conditions -/

/-- The candidate `v'` is of the same version as `v` and has all values that `v` has. -/
structure Candidate.Extends (v' v : Candidate) : Prop where
  version_eq : v'.version = v.version
  has_of_has : ∀ q words, v.has q words → v'.has q words

theorem Candidate.extends_add (v : Candidate) (q : Qualifier) (words : List String) :
    (v.add q words).Extends v where
  version_eq := version_add v q words
  has_of_has r value h := by
    rw [has, values_add]
    split
    · rw [List.any_append, Bool.or_eq_true]
      exact .inl h
    · exact h

/-- A condition that a candidate meets is met by every extension of it. -/
theorem Condition.holds_of_extends (hv : v'.Extends v) (h : c.holds v) : c.holds v' := by
  induction c with
  | term q words => exact hv.has_of_has q words h
  | both left right ihl ihr =>
    rw [holds, Bool.and_eq_true] at h ⊢
    exact ⟨ihl h.1, ihr h.2⟩
  | either left right ihl ihr =>
    rw [holds, Bool.or_eq_true] at h ⊢
    exact h.imp ihl ihr

/-- What a condition says of a candidate and of an extension of it. -/
theorem Condition.holds_cases (c : Condition) (hv : v'.Extends v) :
    c.holds v = c.holds v' ∨ c.holds v = false ∧ c.holds v' = true := by
  cases hc : c.holds v with
  | true => exact .inl (holds_of_extends hv hc).symm
  | false => cases c.holds v' <;> simp

/-! ### Preferences -/

namespace Preference

/-- Further tags of the first candidate never make it worse. -/
def RewardsTags (p : Preference) : Prop :=
  ∀ ⦃v v' : Candidate⦄, v'.Extends v → ∀ w, AtMost (p v w) (p v' w)

theorem rewardsTags_byVersion (order : StringOrder) : (byVersion order).RewardsTags := by
  intro v v' hv w
  rw [byVersion, byVersion, hv.version_eq]
  exact .refl _

theorem rewardsTags_byCondition (c : Condition) : (byCondition c).RewardsTags := by
  intro v v' hv w
  rw [byCondition, byCondition]
  rcases c.holds_cases hv with h | ⟨h, h'⟩
  · rw [h]
    exact .refl _
  · -- The candidate was as bad as any other, and is now as good as any other.
    rw [h, h']
    cases c.holds w with
    | true => exact trivial
    | false => exact fun h => nomatch h

theorem rewardsTags_byConditionThenVersion (c : Condition) (order : StringOrder) :
    (byConditionThenVersion c order).RewardsTags := by
  intro v v' hv w
  rw [byConditionThenVersion, byConditionThenVersion, hv.version_eq]
  rcases c.holds_cases hv with h | ⟨h, h'⟩
  · rw [h]
    exact .refl _
  · -- Whatever the order of version strings says, the verdict was no better before.
    rw [h, h']
    cases c.holds w with
    | true => exact trivial
    | false => exact fun h => nomatch h

/-- Asking one preference after the other rewards tags if all of them do. -/
theorem rewardsTags_foldr {ps : List Preference} (h : ∀ p ∈ ps, RewardsTags p) :
    RewardsTags (ps.foldr compareLex fun _ _ => .eq) := by
  induction ps with
  | nil => exact fun v v' hv w => .refl _
  | cons p ps ih =>
    intro v v' hv w
    have hfirst := h p List.mem_cons_self hv w
    have hrest := ih (fun p' hp => h p' (List.mem_cons_of_mem p hp)) hv w
    exact hfirst.then hrest

end Preference

theorem Tree.rewardsTags_preference {tree : Tree} (h : tree.preference order = .ok p) :
    p.RewardsTags := by
  rcases preference_cases h with rfl | ⟨c, rfl⟩ | ⟨c, rfl⟩
  · exact Preference.rewardsTags_byVersion order
  · exact Preference.rewardsTags_byCondition c
  · exact Preference.rewardsTags_byConditionThenVersion c order

/-- The comparison of a ranking rewards tags, whatever the order of version strings is. -/
theorem Ranking.rewardsTags_compare (h : ofRules order rules = .ok r) :
    Preference.RewardsTags r.compare := by
  apply Preference.rewardsTags_foldr
  intro p hp
  obtain ⟨tree, htree⟩ := exists_preference_of_mem h hp
  exact tree.rewardsTags_preference htree

/-! ### Filters -/

/-- The test of a filter that was read from a query is that of a condition. -/
theorem Filter.exists_test_eq {default : Candidate → Bool} {query : String} {f : Filter}
    (h : ofQueryOr default (some query) = .ok f) : ∃ c : Condition, f.test = c.holds := by
  obtain ⟨tokens, -, h⟩ := bind_eq_ok_iff.1 h
  obtain ⟨arena, -, h⟩ := bind_eq_ok_iff.1 h
  obtain ⟨c, -, rfl⟩ := map_eq_ok_iff.1 h
  exact ⟨c, rfl⟩

/-- **Tags never hurt.** One more value never lowers the verdict on a candidate under a ranking, for
any order of version strings, and a candidate that passes a filter read from a query still passes
it. -/
theorem tagging_never_hurts :
    (∀ order rules r, Ranking.ofRules order rules = .ok r → ∀ v w q words,
        AtMost (r.compare v w) (r.compare (v.add q words) w)) ∧
      ∀ default query f, Filter.ofQueryOr default (some query) = .ok f → ∀ v q words,
        f.test v → f.test (v.add q words) := by
  constructor
  · intro order rules r h v w q words
    exact Ranking.rewardsTags_compare h (v.extends_add q words) w
  · intro default query f h v q words htest
    obtain ⟨c, hc⟩ := Filter.exists_test_eq h
    rw [hc] at htest ⊢
    exact c.holds_of_extends (v.extends_add q words) htest

/-- A release by a build that a filter asks for: the tag lets it catch up with another release. -/
theorem tagging_never_hurts_release :
    ∃ v w r f, v = (Candidate.ofVersion "2.0").add .build ["2"] ∧
      w = (Candidate.ofVersion "1.0").add .quality ["RELEASED"] ∧
      Ranking.ofRules .natural ["QUALITY:RELEASED SORT_BY SUFFIX-VERSION"] = .ok r ∧
      Filter.ofQueryOr (fun _ => false) (some "BUILD:1, BUILD:2") = .ok f ∧
      AtMost (r.compare v w) (r.compare (v.add .quality ["RELEASED"]) w) ∧
      f.test v ∧ f.test (v.add .quality ["RELEASED"]) := by
  obtain ⟨r, hr⟩ := exists_eq_ok_of_isOk
    (x := Ranking.ofRules .natural ["QUALITY:RELEASED SORT_BY SUFFIX-VERSION"])
    (by decide +kernel)
  obtain ⟨f, hf⟩ := exists_eq_ok_of_isOk
    (x := Filter.ofQueryOr (fun _ => false) (some "BUILD:1, BUILD:2")) (by decide +kernel)
  have htest : (Filter.ofQueryOr (fun _ => false) (some "BUILD:1, BUILD:2")).toOption.any
      fun f => f.test ((Candidate.ofVersion "2.0").add .build ["2"]) := by decide +kernel
  rw [hf] at htest
  exact ⟨_, _, r, f, rfl, rfl, hr, hf, tagging_never_hurts.1 _ _ r hr _ _ _ _, htest,
    tagging_never_hurts.2 _ _ f hf _ _ _ htest⟩

end VersionRules
