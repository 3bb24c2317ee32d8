import VersionRules.Proofs.Rule.Offences
import VersionRules.Proofs.Token.Forbidden

/-!
# The rules of a ranking

The rules of a ranking are those it was read from, and the default rule if they do not end in the
order of version strings alone. So this order is the last rule, and no other rule consists of it.
Rules contain no comma; a list of them can be written with commas between them and read again, and
gives the same ranking. Two candidates are of equal rank only if their version strings are equal in
the order, since the last rule asks for nothing else.

## Main definitions

* `EndsInOrder` — lists of rules that need no default rule
* `Rank.IsOrder` — the ranks that are the order of version strings alone
* `Completes` — the ranks that a list of rules has, by the three ways of reading it

## Main results

* `Ranking.ranksOf_eq_ok_iff` — what is read is what the relation says
* `Completes.exists_last` — the order alone comes last, and nowhere else
* `Completes.map_rule` — which rules a ranking has
* `Completes.again` — the rules of a ranking have the same ranks
* `ranking_rules` — all of this about a ranking
-/

namespace VersionRules

variable {order : StringOrder} {rule : String} {rules : List String} {rank : Rank}
  {ranks : List Rank} {t : Token} {v w : Candidate}

/-! ### The order of version strings alone -/

/-- The last rule of a list is the order of version strings alone. -/
def EndsInOrder (rules : List String) : Prop :=
  ∃ rule t, rules.getLast? = some rule ∧ IsLoneOrder rule t

theorem not_endsInOrder_nil : ¬ EndsInOrder [] := by
  rintro ⟨rule, t, hlast, -⟩
  cases hlast

theorem endsInOrder_singleton (h : IsLoneOrder rule t) : EndsInOrder [rule] :=
  ⟨rule, t, rfl, h⟩

/-- A rule that is more than an order does not end a list in an order. -/
theorem endsInOrder_cons_iff (h : ∀ t, ¬ IsLoneOrder rule t) :
    EndsInOrder (rule :: rules) ↔ EndsInOrder rules := by
  cases rules with
  | nil =>
    refine iff_of_false ?_ not_endsInOrder_nil
    rintro ⟨rule', t, hlast, ht⟩
    obtain rfl := Option.some.inj hlast
    exact h t ht
  | cons rule' rules => rw [EndsInOrder, List.getLast?_cons_cons, EndsInOrder]

namespace Rank

/-- The rule of a rank consists of an ordering token alone. -/
def IsOrder (rank : Rank) : Prop :=
  ∃ t, rank.tokens = [t] ∧ t.kind = .order

theorem isOrder_iff (h : ofRule order rule = .ok rank) :
    rank.IsOrder ↔ ∃ t, IsLoneOrder rule t := by
  refine exists_congr fun t => and_congr_left fun _ => ?_
  rw [(ofRule_eq_ok_iff.1 h).1, Except.ok.injEq]

theorem rule_of_ofRule (h : ofRule order rule = .ok rank) : rank.rule = rule :=
  (ofTokens_eq_ok_iff.1 (ofRule_eq_ok_iff.1 h).2).1

/-- A rank that is the order of version strings alone compares by it. -/
theorem preference_of_isOrder (h : ofRule order rule = .ok rank) (horder : rank.IsOrder) :
    rank.preference = .byVersion order := by
  obtain ⟨t, htokens, ht⟩ := horder
  obtain ⟨-, -, hparse, hpreference⟩ := ofTokens_eq_ok_iff.1 (ofRule_eq_ok_iff.1 h).2
  have htype : t.type = .order := by rw [Token.type, ht, TokenKind.type]
  obtain ⟨a, ha, hleaf⟩ := (DerivesRule.order htype).exists_parse
  rw [htokens, ha] at hparse
  obtain rfl := Except.ok.inj hparse
  rw [hleaf] at hpreference
  simp only [Tree.preference, ht, Except.ok.injEq] at hpreference
  exact hpreference.symm

end Rank

/-! ### What is read from a list of rules -/

/-- The ranks that a list of rules has. The default rule is added if none is left; the list may end
in the order of version strings alone; and every other rule is followed by what the rules behind it
have. -/
inductive Completes (order : StringOrder) : List String → List Rank → Prop
  | default {rank : Rank} (h : Rank.ofRule order Rank.defaultRule = .ok rank) :
    Completes order [] [rank]
  | last {rule : String} {rank : Rank} {t : Token} (hlone : IsLoneOrder rule t)
      (h : Rank.ofRule order rule = .ok rank) : Completes order [rule] [rank]
  | cons {rule : String} {rules : List String} {rank : Rank} {ranks : List Rank}
      (hlone : ∀ t, ¬ IsLoneOrder rule t) (h : Rank.ofRule order rule = .ok rank)
      (hrest : Completes order rules ranks) : Completes order (rule :: rules) (rank :: ranks)

theorem Ranking.ranksOf_eq_ok_iff :
    ranksOf order rules = .ok ranks ↔ Completes order rules ranks := by
  constructor
  · intro h
    induction rules generalizing ranks with
    | nil =>
      obtain ⟨rank, hrank, rfl⟩ := map_eq_ok_iff.1 h
      exact .default hrank
    | cons rule rules ih =>
      obtain ⟨e, -, he⟩ | ⟨t, rank, ht, hrank, hlast⟩ | ⟨rank, hrank, hlone, hrest⟩ :=
        ranksOf_cons_cases order rule rules
      · cases he.symm.trans h
      · rw [hlast] at h
        split at h
        · next hrules =>
          obtain rfl := Except.ok.inj h
          rw [hrules]
          exact .last ht hrank
        · cases h
      · rw [hrest] at h
        cases hothers : ranksOf order rules with
        | error e =>
          rw [hothers] at h
          cases h
        | ok others =>
          rw [hothers] at h
          obtain rfl := Except.ok.inj h
          exact .cons hlone hrank (ih hothers)
  · intro h
    induction h with
    | default h => exact map_eq_ok_iff.2 ⟨_, h, rfl⟩
    | @last rule rank t hlone h =>
      obtain ⟨e, he, -⟩ | ⟨t, rank', -, hrank, hlast⟩ | ⟨rank', -, hmore, -⟩ :=
        ranksOf_cons_cases order rule []
      · cases he.symm.trans h
      · obtain rfl := Except.ok.inj (hrank.symm.trans h)
        rw [hlast, if_pos rfl]
      · exact absurd hlone (hmore t)
    | @cons rule rules rank ranks hlone h _ ih =>
      obtain ⟨e, he, -⟩ | ⟨t, -, ht, -⟩ | ⟨rank', hrank, -, hrest⟩ :=
        ranksOf_cons_cases order rule rules
      · cases he.symm.trans h
      · exact absurd ht (hlone t)
      · obtain rfl := Except.ok.inj (hrank.symm.trans h)
        rw [hrest, ih]
        rfl

namespace Completes

/-- The order of version strings alone comes last, and nowhere else. -/
theorem exists_last (h : Completes order rules ranks) :
    ∃ others last, ranks = others ++ [last] ∧ last.IsOrder ∧ ∀ rank ∈ others, ¬ rank.IsOrder := by
  induction h with
  | @default rank h =>
    exact ⟨[], rank, rfl, (Rank.isOrder_iff h).2 ⟨_, Rank.isLoneOrder_defaultRule⟩, nofun⟩
  | @last rule rank t hlone h => exact ⟨[], rank, rfl, (Rank.isOrder_iff h).2 ⟨t, hlone⟩, nofun⟩
  | @cons rule rules rank ranks hlone h _ ih =>
    obtain ⟨others, last, rfl, hlast, hothers⟩ := ih
    have hrank : ¬ rank.IsOrder := (Rank.isOrder_iff h).not.2 (not_exists.2 hlone)
    exact ⟨rank :: others, last, rfl, hlast, List.forall_mem_cons.2 ⟨hrank, hothers⟩⟩

/-- The rules are those that were given, and the default rule if they do not end in an order. -/
theorem map_rule (h : Completes order rules ranks) :
    (EndsInOrder rules → ranks.map Rank.rule = rules) ∧
      (¬ EndsInOrder rules → ranks.map Rank.rule = rules ++ [Rank.defaultRule]) := by
  induction h with
  | default h =>
    refine ⟨fun hends => absurd hends not_endsInOrder_nil, fun _ => ?_⟩
    rw [List.map_singleton, Rank.rule_of_ofRule h, List.nil_append]
  | last hlone h =>
    refine ⟨fun _ => ?_, fun hends => absurd (endsInOrder_singleton hlone) hends⟩
    rw [List.map_singleton, Rank.rule_of_ofRule h]
  | cons hlone h _ ih =>
    rw [endsInOrder_cons_iff hlone, List.map_cons, Rank.rule_of_ofRule h, List.cons_append]
    exact ih.imp (fun hrest hends => by rw [hrest hends]) (fun hrest hends => by rw [hrest hends])

theorem ofRule_of_mem (h : Completes order rules ranks) :
    ∀ rank ∈ ranks, Rank.ofRule order rank.rule = .ok rank := by
  have hself {rule : String} {rank : Rank} (h : Rank.ofRule order rule = .ok rank) :
      Rank.ofRule order rank.rule = .ok rank := by
    rw [Rank.rule_of_ofRule h, h]
  induction h with
  | default h => exact List.forall_mem_singleton.2 (hself h)
  | last _ h => exact List.forall_mem_singleton.2 (hself h)
  | cons _ h _ ih => exact List.forall_mem_cons.2 ⟨hself h, ih⟩

/-- The rules of a ranking end in an order, so nothing is added when they are read again. -/
theorem again (h : Completes order rules ranks) : Completes order (ranks.map Rank.rule) ranks := by
  induction h with
  | default h =>
    rw [List.map_singleton, Rank.rule_of_ofRule h]
    exact .last Rank.isLoneOrder_defaultRule h
  | last hlone h =>
    rw [List.map_singleton, Rank.rule_of_ofRule h]
    exact .last hlone h
  | cons hlone h _ ih =>
    rw [List.map_cons, Rank.rule_of_ofRule h]
    exact .cons hlone h ih

end Completes

/-! ### Rules and commas -/

/-- A rank rule contains no comma, not even inside quotes. -/
theorem Rank.comma_notMem (h : ofRule order rule = .ok rank) : ',' ∉ rule.toList := by
  intro hcomma
  have htokens := (ofRule_eq_ok_iff.1 h).1
  cases Grammar.forbids_eq_false_of_tokens htokens ',' hcomma rfl

/-- Rules without commas are told apart again when they are written with commas between them. -/
theorem split_intercalate_comma (h : ∀ rule ∈ rules, ',' ∉ rule.toList) (hrules : rules ≠ []) :
    ((",".intercalate rules).split ',').toList.map String.Slice.copy = rules := by
  have hsplit := String.toList_split_intercalate h
  rw [if_neg hrules] at hsplit
  exact hsplit

/-- **The rules of a ranking.** The last rank, and no other one, is the order of version strings
alone. The rules are those that were read, and the default rule if they did not end in this order.
No rule contains a comma, so they can be written with commas between them. Read again, they give the
same ranking. And candidates of equal rank have version strings that are equal in the order. -/
theorem ranking_rules {r : Ranking} (h : Ranking.ofRules order rules = .ok r) :
    (∃ others last, r.ranks = others ++ [last] ∧ last.IsOrder ∧
        ∀ rank ∈ others, ¬ rank.IsOrder) ∧
      (EndsInOrder rules → r.rules = rules) ∧
      (¬ EndsInOrder rules → r.rules = rules ++ [Rank.defaultRule]) ∧
      (∀ rule ∈ r.rules, ',' ∉ rule.toList) ∧
      ((",".intercalate r.rules).split ',').toList.map String.Slice.copy = r.rules ∧
      Ranking.ofRules order r.rules = .ok r ∧
      ∀ v w, r.compare v w = .eq → order v.version w.version = .eq := by
  obtain ⟨ranks, hranks, rfl⟩ := map_eq_ok_iff.1 h
  have hcompletes := Ranking.ranksOf_eq_ok_iff.1 hranks
  obtain ⟨others, last, hlast, hisOrder, hothers⟩ := hcompletes.exists_last
  have hcomma : ∀ rule ∈ ranks.map Rank.rule, ',' ∉ rule.toList :=
    List.forall_mem_map.2 fun rank hrank => Rank.comma_notMem (hcompletes.ofRule_of_mem rank hrank)
  have hne : ranks.map Rank.rule ≠ [] := by
    rw [hlast]
    simp
  refine ⟨⟨others, last, hlast, hisOrder, hothers⟩, hcompletes.map_rule.1, hcompletes.map_rule.2,
    hcomma, split_intercalate_comma hcomma hne, ?_, ?_⟩
  · exact map_eq_ok_iff.2 ⟨ranks, Ranking.ranksOf_eq_ok_iff.2 hcompletes.again, rfl⟩
  · intro v w heq
    have hmem : last ∈ ranks := by
      rw [hlast]
      exact List.mem_append_right others (List.mem_singleton_self last)
    have hpreference := Rank.preference_of_isOrder (hcompletes.ofRule_of_mem last hmem) hisOrder
    have hlastEq := Ranking.compare_eq_eq_iff.1 heq last hmem
    rw [hpreference] at hlastEq
    exact hlastEq

/-- A list with a quoted value, and with an order behind a condition, which is no final one. -/
theorem ranking_rules_quoted :
    ∃ r, Ranking.ofRules .natural ["GROUP_VERSION:'a b'", "BUILD:1 SORT_BY SUFFIX-VERSION"] =
        .ok r ∧
      ¬ EndsInOrder ["GROUP_VERSION:'a b'", "BUILD:1 SORT_BY SUFFIX-VERSION"] ∧
      r.rules = ["GROUP_VERSION:'a b'", "BUILD:1 SORT_BY SUFFIX-VERSION", "SUFFIX-VERSION"] ∧
      ((",".intercalate r.rules).split ',').toList.map String.Slice.copy = r.rules ∧
      Ranking.ofRules .natural r.rules = .ok r := by
  obtain ⟨r, hr⟩ := exists_eq_ok_of_isOk
    (x := Ranking.ofRules .natural ["GROUP_VERSION:'a b'", "BUILD:1 SORT_BY SUFFIX-VERSION"])
    (by decide +kernel)
  have hends : ¬ EndsInOrder ["GROUP_VERSION:'a b'", "BUILD:1 SORT_BY SUFFIX-VERSION"] := by
    rintro ⟨rule, t, hlast, htokens, -⟩
    obtain rfl : "BUILD:1 SORT_BY SUFFIX-VERSION" = rule := Option.some.inj hlast
    have hcount : (Rank.grammar.tokens "BUILD:1 SORT_BY SUFFIX-VERSION").map List.length =
        .ok 3 := by decide +kernel
    rw [htokens] at hcount
    cases hcount
  obtain ⟨-, -, hrules, -, hsplit, hagain, -⟩ := ranking_rules hr
  exact ⟨r, hr, hends, hrules hends, hsplit, hagain⟩

end VersionRules
