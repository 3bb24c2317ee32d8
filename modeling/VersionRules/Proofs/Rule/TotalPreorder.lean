import VersionRules.Config
import VersionRules.Proofs.Rule.Ranks

/-!
# Rankings are total preorders

A ranking sorts candidates reliably only if its comparison is a total preorder. Each of the three
kinds of preference is one if the order of version strings is, and asking one preference after the
other keeps this. The natural order and the order of suffixed versions are total preorders, so that
the rankings of configurations are.

The library's `Std.TransCmp` says of a comparison that it is a total preorder; `IsPreorder` spells
this out.

## Main definitions

* `IsPreorder` — the comparisons that are total preorders

## Main results

* `transCmp_foldr` — asking one comparison after the other
* `Ranking.transCmp_compare` — the comparison of a ranking is a total preorder
* `ranking_isPreorder` — the same, for all orders of version strings and for all configurations
-/

namespace VersionRules

open Std

/-- The comparisons that are total preorders, in which `lt` and `eq` together mean "not above". -/
structure IsPreorder {α : Type} (cmp : α → α → Ordering) : Prop where
  refl : ∀ a, cmp a a = .eq
  swap : ∀ a b, cmp a b = (cmp b a).swap
  trans : ∀ a b c, cmp a b ≠ .gt → cmp b c ≠ .gt → cmp a c ≠ .gt

variable {α β : Type} {cmp : α → α → Ordering} {order : StringOrder} {r : Ranking}

theorem isPreorder_iff_transCmp : IsPreorder cmp ↔ TransCmp cmp := by
  constructor
  · intro h
    have : OrientedCmp cmp := ⟨h.swap _ _⟩
    constructor
    intro a b c hab hbc
    rw [Ordering.isLE_iff_ne_gt] at *
    exact h.trans a b c hab hbc
  · intro h
    constructor
    · intro a
      exact ReflCmp.compare_self
    · intro a b
      exact OrientedCmp.eq_swap
    · intro a b c hab hbc
      apply Ordering.isLE_iff_ne_gt.1
      exact TransCmp.isLE_trans (Ordering.ne_gt_iff_isLE.1 hab) (Ordering.ne_gt_iff_isLE.1 hbc)

/-- Candidates of equal rank to a third one are of equal rank. -/
theorem IsPreorder.eq_trans (h : IsPreorder cmp) {a b c : α} (hab : cmp a b = .eq)
    (hbc : cmp b c = .eq) : cmp a c = .eq := by
  have := isPreorder_iff_transCmp.1 h
  exact TransCmp.eq_trans hab hbc

/-! ### Building comparisons -/

/-- To compare by what a function says is a total preorder if what it says is compared by one. -/
theorem transCmp_comap [h : TransCmp cmp] (f : β → α) : TransCmp fun a b => cmp (f a) (f b) where
  eq_swap := h.eq_swap
  isLE_trans := h.isLE_trans

instance transCmp_eq : TransCmp fun (_ _ : α) => Ordering.eq where
  eq_swap := rfl
  isLE_trans _ _ := rfl

/-- To ask one comparison after the other is a total preorder if all of them are. -/
theorem transCmp_foldr {cmps : List (α → α → Ordering)} (h : ∀ cmp ∈ cmps, TransCmp cmp) :
    TransCmp (cmps.foldr compareLex fun _ _ => .eq) := by
  induction cmps with
  | nil => exact transCmp_eq
  | cons cmp cmps ih =>
    have := h cmp List.mem_cons_self
    have := ih fun cmp' hcmp => h cmp' (List.mem_cons_of_mem _ hcmp)
    exact inferInstanceAs (TransCmp (compareLex cmp (cmps.foldr compareLex fun _ _ => .eq)))

/-! ### The three kinds of preference -/

namespace Preference

instance [TransCmp order] : TransCmp (byVersion order) :=
  transCmp_comap Candidate.version

instance (c : Condition) : TransCmp (byCondition c) :=
  inferInstanceAs (TransCmp (compareOn c.holds))

instance (c : Condition) [h : TransCmp order] : TransCmp (byConditionThenVersion c order) where
  eq_swap {v w} := by
    simp only [byConditionThenVersion]
    cases c.holds v <;> cases c.holds w <;> first | rfl | exact h.eq_swap
  isLE_trans {u v w} huv hvw := by
    simp only [byConditionThenVersion] at *
    -- If not all three meet the condition, the first that does not settles the matter.
    cases hu : c.holds u <;> cases hv : c.holds v <;> cases hw : c.holds w <;>
      simp only [hu, hv, hw] at * <;> first | rfl | contradiction | exact h.isLE_trans huv hvw

end Preference

theorem Tree.transCmp_preference [TransCmp order] {tree : Tree} {p : Preference}
    (h : tree.preference order = .ok p) : TransCmp p := by
  rcases preference_cases h with rfl | ⟨c, rfl⟩ | ⟨c, rfl⟩
  · infer_instance
  · infer_instance
  · infer_instance

/-- The comparison of a ranking is a total preorder if the order of version strings is. -/
theorem Ranking.transCmp_compare [TransCmp order] {rules : List String}
    (h : ofRules order rules = .ok r) : TransCmp r.compare := by
  apply transCmp_foldr
  intro p hp
  obtain ⟨tree, htree⟩ := exists_preference_of_mem h hp
  exact tree.transCmp_preference htree

/-! ### The orders of version strings -/

instance : TransCmp StringOrder.natural :=
  inferInstanceAs (TransCmp (compare : String → String → Ordering))

instance : TransCmp SuffixedVersion.compare :=
  inferInstanceAs (TransCmp (compareLex (compareOn SuffixedVersion.major) <|
    compareLex (compareOn SuffixedVersion.minor) <| compareLex (compareOn SuffixedVersion.micro) <|
    compareLex (compareOn SuffixedVersion.qualifier) (compareOn SuffixedVersion.rebuildNumber)))

instance (compiles : String → Bool) (suffix : String) :
    TransCmp (SuffixedVersion.order compiles suffix) :=
  transCmp_comap (SuffixedVersion.ofString compiles suffix)

instance (c : Config) (compiles : String → Bool) : TransCmp (c.stringOrder compiles) := by
  rw [Config.stringOrder]
  split
  · split
    · infer_instance
    · infer_instance
  · infer_instance

/-- **Rankings are total preorders.** Every ranking is one if its order of version strings is, and
so candidates of equal rank to a third one are of equal rank. The natural order and the order of
suffixed versions are total preorders, for every suffix, and so is the ranking of every
configuration, whichever patterns compile. -/
theorem ranking_isPreorder :
    (∀ order rules r, IsPreorder order → Ranking.ofRules order rules = .ok r →
        IsPreorder r.compare ∧
          ∀ u v w, r.compare u v = .eq → r.compare v w = .eq → r.compare u w = .eq) ∧
      IsPreorder StringOrder.natural ∧
      (∀ compiles suffix, IsPreorder (SuffixedVersion.order compiles suffix)) ∧
      ∀ (config : Config) compiles r, config.ranking compiles = .ok r → IsPreorder r.compare := by
  refine ⟨?_, ?_, ?_, ?_⟩
  · intro order rules r horder h
    have := isPreorder_iff_transCmp.1 horder
    have hr := isPreorder_iff_transCmp.2 (Ranking.transCmp_compare h)
    exact ⟨hr, fun u v w => hr.eq_trans⟩
  · exact isPreorder_iff_transCmp.2 inferInstance
  · intro compiles suffix
    exact isPreorder_iff_transCmp.2 inferInstance
  · intro config compiles r h
    exact isPreorder_iff_transCmp.2 (Ranking.transCmp_compare h)

/-- A ranking with a sorted condition and the default rule. -/
theorem ranking_isPreorder_sorted :
    ∃ r, Ranking.ofRules .natural ["QUALITY:RELEASED SORT_BY SUFFIX-VERSION"] = .ok r ∧
      IsPreorder r.compare := by
  have hok :
      (Ranking.ofRules .natural ["QUALITY:RELEASED SORT_BY SUFFIX-VERSION"]).isOk = true := by
    decide +kernel
  cases hr : Ranking.ofRules .natural ["QUALITY:RELEASED SORT_BY SUFFIX-VERSION"] with
  | error e =>
    rw [hr] at hok
    cases hok
  | ok r => exact ⟨r, rfl, (ranking_isPreorder.1 _ _ r ranking_isPreorder.2.1 hr).1⟩

end VersionRules
