import VersionRules.Command.Check
import VersionRules.Config
import VersionRules.Proofs.Rule.Reordering

/-!
# Checked rules are usable rules

Rules are checked without a rebuild suffix, and an absent query and an empty list of rules are not
looked at. All the same, rules pass the check exactly if a configuration with these rules can be
used, whatever its suffix and whether or not its pattern compiles: the order of version strings
decides neither whether rules are accepted nor what is shown of them, and what is left out has no
errors.

## Main definitions

* `Config.shownQuery`, `Config.shownRanks` — what is shown of the rules of a configuration

## Main results

* `checkQuery_eq`, `checkRanks_eq` — the check of a query, and that of a list of rules
* `checkRules_eq` — a check shows the rules of the configuration that is built
* `checkRules_agrees_with_build` — both succeed or none, with the same error or the same rules
-/

namespace VersionRules

/-- What is shown of a rule that was read. -/
def CheckedRule.ofSource (source : String × List Token × Arena) : CheckedRule :=
  ⟨.rank, source.1, source.2.1.map Token.text, source.2.2.text⟩

namespace Config

/-- What is shown of the query of a configuration. -/
def shownQuery (c : Config) (f : Filter) : List CheckedRule :=
  c.predicate.toList.map fun query => .ofFilter query f

/-- What is shown of the rank rules of a configuration. -/
def shownRanks (c : Config) (r : Ranking) : List CheckedRule :=
  if c.ranks.isEmpty then [] else r.ranks.map .ofRank

end Config

/-! ### The two parts of a check -/

theorem checkQuery_eq (c : Config) : checkQuery c.predicate = c.filter.map c.shownQuery := by
  obtain ⟨predicate, ranks, suffix⟩ := c
  cases predicate with
  | none => rfl
  | some query =>
    rw [checkQuery, Config.filter]
    cases Filter.ofQuery (some query) <;> rfl

/-- The default rule alone is a ranking under every order. -/
theorem exists_ofRules_nil (order : StringOrder) : ∃ r, Ranking.ofRules order [] = .ok r := by
  obtain ⟨r, hr⟩ := exists_eq_ok_of_isOk (x := Ranking.ofRules .natural []) (by decide +kernel)
  obtain ⟨r', -, hr'⟩ := Ranking.withOrder_eq_ofRules hr order
  exact ⟨r', hr'⟩

/-- The rules of a ranking are shown alike under all orders. -/
theorem map_ofRank_ofRules (order order' : StringOrder) (rules : List String) :
    (Ranking.ofRules order rules).map (fun r => r.ranks.map CheckedRule.ofRank) =
      (Ranking.ofRules order' rules).map fun r => r.ranks.map CheckedRule.ofRank := by
  have hshown (o : StringOrder) :
      (Ranking.ofRules o rules).map (fun r => r.ranks.map CheckedRule.ofRank) =
        ((Ranking.ofRules o rules).map fun r => r.ranks.map Rank.source).map
          (List.map CheckedRule.ofSource) := by
    cases Ranking.ofRules o rules with
    | error e => rfl
    | ok r =>
      show Except.ok _ = Except.ok _
      rw [List.map_map]
      rfl
  rw [hshown order, hshown order', Ranking.map_source_ofRules order order']

theorem checkRanks_eq (c : Config) (compiles : String → Bool) :
    checkRanks c.ranks = (c.ranking compiles).map c.shownRanks := by
  obtain ⟨predicate, ranks, suffix⟩ := c
  cases ranks with
  | nil =>
    obtain ⟨r, hr⟩ := exists_ofRules_nil (Config.stringOrder ⟨predicate, [], suffix⟩ compiles)
    rw [Config.ranking, hr]
    rfl
  | cons rule rules =>
    -- A check reads the rules with the natural order, and the configuration with its own.
    have hshown := map_ofRank_ofRules .natural
      (Config.stringOrder ⟨predicate, rule :: rules, suffix⟩ compiles) (rule :: rules)
    refine Eq.trans ?_ hshown
    rw [checkRanks]
    cases Ranking.ofRules .natural (rule :: rules) <;> rfl

/-- A check shows the rules of the configuration that is built, or fails as building it does. -/
theorem checkRules_eq (c : Config) (compiles : String → Bool) :
    checkRules c.predicate c.ranks =
      (c.build compiles).map fun built => c.shownQuery built.1 ++ c.shownRanks built.2 := by
  rw [checkRules, checkQuery_eq, checkRanks_eq c compiles, Config.build]
  cases c.filter with
  | error e => rfl
  | ok f => cases c.ranking compiles <;> rfl

/-! ### What is shown of rank rules -/

theorem filter_kind_shownQuery (c : Config) (f : Filter) :
    (c.shownQuery f).filter (fun shown => shown.kind = .rank) = [] := by
  obtain ⟨predicate, ranks, suffix⟩ := c
  cases predicate <;> rfl

theorem filter_kind_shownRanks (c : Config) (r : Ranking) :
    (c.shownRanks r).filter (fun shown => shown.kind = .rank) = c.shownRanks r := by
  rw [List.filter_eq_self]
  intro shown hshown
  unfold Config.shownRanks at hshown
  split at hshown
  · cases hshown
  · obtain ⟨rank, -, rfl⟩ := List.mem_map.1 hshown
    rfl

/-- **A check of rules is as good as their use.** Rules pass the check exactly if a configuration
with these rules can be used, whatever its suffix and whichever patterns compile; if not, both fail
with the same error. What is shown of a list of rank rules is the rules, the tokens and the trees of
the ranking in use. -/
theorem checkRules_agrees_with_build (c : Config) (compiles : String → Bool) :
    ((∃ shown, checkRules c.predicate c.ranks = .ok shown) ↔
        ∃ f r, c.build compiles = .ok (f, r)) ∧
      (∀ e e', checkRules c.predicate c.ranks = .error e → c.build compiles = .error e' →
        e = e') ∧
      ∀ shown f r, checkRules c.predicate c.ranks = .ok shown → c.build compiles = .ok (f, r) →
        c.ranks ≠ [] →
          let ranks := shown.filter fun s => s.kind = .rank
          ranks.map CheckedRule.rule = r.rules ∧
            ranks.map CheckedRule.tokens = r.ranks.map (fun rank => rank.tokens.map Token.text) ∧
            ranks.map CheckedRule.tree = r.ranks.map fun rank => rank.arena.text := by
  have hcheck := checkRules_eq c compiles
  cases hbuild : c.build compiles with
  | error e =>
    rw [hbuild] at hcheck
    have hcheck : checkRules c.predicate c.ranks = .error e := hcheck
    rw [hcheck]
    refine ⟨⟨nofun, nofun⟩, ?_, nofun⟩
    intro e₁ e₂ h₁ h₂
    exact (Except.error.inj h₁).symm.trans (Except.error.inj h₂)
  | ok built =>
    obtain ⟨f, r⟩ := built
    rw [hbuild] at hcheck
    have hcheck : checkRules c.predicate c.ranks = .ok (c.shownQuery f ++ c.shownRanks r) := hcheck
    rw [hcheck]
    refine ⟨⟨fun _ => ⟨f, r, rfl⟩, fun _ => ⟨_, rfl⟩⟩, ?_, ?_⟩
    · intro e e' h
      cases h
    · intro shown f' r' hshown hbuilt hranks
      obtain ⟨rfl, rfl⟩ := Prod.mk.inj (Except.ok.inj hbuilt)
      obtain rfl := Except.ok.inj hshown
      have hlisted : c.shownRanks r = r.ranks.map .ofRank :=
        if_neg (by simpa using hranks)
      rw [List.filter_append, filter_kind_shownQuery, filter_kind_shownRanks, List.nil_append,
        hlisted]
      simp only [List.map_map]
      exact ⟨rfl, rfl, rfl⟩

/-- A query and a sorted rule with a suffix, and an order that is not the last rule. -/
theorem checkRules_agrees_with_build_suffix :
    (∃ shown f r, checkRules (some "BUILD:1, BUILD:2") ["TYPE:jar SORT_BY SUFFIX-VERSION"] =
          .ok shown ∧
        Config.build ⟨some "BUILD:1, BUILD:2", ["TYPE:jar SORT_BY SUFFIX-VERSION"], some "redhat"⟩
          (fun _ => true) = .ok (f, r) ∧
        (shown.filter fun s => s.kind = .rank).map CheckedRule.rule = r.rules) ∧
      ∃ e, checkRules none ["SUFFIX-VERSION", "TYPE:jar"] = .error e ∧
        Config.build ⟨none, ["SUFFIX-VERSION", "TYPE:jar"], some "redhat"⟩ (fun _ => true) =
          .error e := by
  constructor
  · obtain ⟨shown, hshown⟩ := exists_eq_ok_of_isOk
      (x := checkRules (some "BUILD:1, BUILD:2") ["TYPE:jar SORT_BY SUFFIX-VERSION"])
      (by decide +kernel)
    obtain ⟨hiff, -, hranks⟩ := checkRules_agrees_with_build
      ⟨some "BUILD:1, BUILD:2", ["TYPE:jar SORT_BY SUFFIX-VERSION"], some "redhat"⟩ (fun _ => true)
    obtain ⟨f, r, hbuild⟩ := hiff.1 ⟨shown, hshown⟩
    exact ⟨shown, f, r, hshown, hbuild, (hranks shown f r hshown hbuild (List.cons_ne_nil _ _)).1⟩
  · have hcheck : checkRules none ["SUFFIX-VERSION", "TYPE:jar"] =
        .error (.atToken .orderNotLast ⟨0, 14, .order⟩) := by
      decide +kernel
    obtain ⟨hiff, herror, -⟩ := checkRules_agrees_with_build
      ⟨none, ["SUFFIX-VERSION", "TYPE:jar"], some "redhat"⟩ (fun _ => true)
    cases hbuild : Config.build ⟨none, ["SUFFIX-VERSION", "TYPE:jar"], some "redhat"⟩
        (fun _ => true) with
    | error e =>
      obtain rfl := herror _ e hcheck hbuild
      exact ⟨_, hcheck, rfl⟩
    | ok built =>
      obtain ⟨shown, hshown⟩ := hiff.2 ⟨built.1, built.2, hbuild⟩
      cases hcheck.symm.trans hshown

end VersionRules
