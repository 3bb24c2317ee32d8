import VersionRules.Proofs.Rule.Ranks

/-!
# Rankings under another order

A ranking keeps the tree of each rule, and can be put under another order of version strings without
reading the rules again. This gives the ranking that the rules have under the other order: whether a
tree stands for a preference does not depend on the order, and the preference is found from the tree
alone.

## Main definitions

* `Rank.source` — what a rank keeps of its rule, whatever the order is
* `Ranking.Built` — the rankings there are

## Main results

* `Tree.exists_preference` — a tree that stands for a preference under one order does so under all
* `Ranking.map_source_ofRules` — what is kept of a list of rules does not depend on the order, and
  neither does the first error in them
* `Ranking.withOrder_eq_ofRules` — to put a ranking under an order is to read its rules under it
* `Ranking.Built.exists_ofRules` — so every ranking is that of a list of rules
* `withOrder_sequence` — the same for a sequence of orders, of which the last one counts
-/

namespace VersionRules

variable {order order' : StringOrder} {rule : String} {rules : List String} {tokens : List Token}
  {ranks ranks' : List Rank} {rank rank' : Rank} {r r' : Ranking} {p : Preference}

namespace Tree

/-- Whether a tree stands for a preference, and what is wrong if it does not, is the same under all
orders of version strings. -/
theorem map_preference (tree : Tree) (order order' : StringOrder) :
    (tree.preference order).map (fun _ => ()) = (tree.preference order').map fun _ => () := by
  cases tree with
  | missing | root | group => rfl
  | leaf t =>
    simp only [preference]
    split <;> rfl
  | binary t left right =>
    simp only [preference]
    split
    · rfl
    · rfl
    · split
      · rfl
      · cases right.requireOrder with
        | error e => rfl
        | ok u => cases left.condition <;> rfl
    · rfl

/-- A tree that stands for a preference under one order does so under every other. -/
theorem exists_preference {tree : Tree} (h : tree.preference order = .ok p)
    (order' : StringOrder) : ∃ p', tree.preference order' = .ok p' := by
  have hmap := tree.map_preference order order'
  rw [h] at hmap
  cases hp' : tree.preference order' with
  | ok p' => exact ⟨p', rfl⟩
  | error e =>
    rw [hp'] at hmap
    cases hmap

end Tree

/-! ### One rank -/

namespace Rank

/-- What a rank keeps of its rule, whatever the order is: the text, the tokens and the tree. -/
def source (r : Rank) : String × List Token × Arena :=
  (r.rule, r.tokens, r.arena)

theorem source_of_withOrder (h : rank.withOrder order' = .ok rank') :
    rank'.source = rank.source := by
  obtain ⟨p, -, rfl⟩ := map_eq_ok_iff.1 h
  rfl

/-- A rank that is put under another order is the one that its tokens have under that order. -/
theorem withOrder_eq_ofTokens (h : ofTokens order rule tokens = .ok rank) (order' : StringOrder) :
    rank.withOrder order' = ofTokens order' rule tokens := by
  obtain ⟨rfl, rfl, harena, -⟩ := ofTokens_eq_ok_iff.1 h
  rw [ofTokens, harena]
  rfl

theorem exists_withOrder (h : ofTokens order rule tokens = .ok rank) (order' : StringOrder) :
    ∃ rank', rank.withOrder order' = .ok rank' := by
  obtain ⟨p, hp⟩ := Tree.exists_preference (ofTokens_eq_ok_iff.1 h).2.2.2 order'
  exact ⟨{ rank with preference := p }, map_eq_ok_iff.2 ⟨p, hp, rfl⟩⟩

/-- What is kept of a rule, and what is wrong with it, is the same under all orders. -/
theorem map_source_ofTokens (order order' : StringOrder) (rule : String) (tokens : List Token) :
    (ofTokens order rule tokens).map source = (ofTokens order' rule tokens).map source := by
  refine map_bind_congr_right ?_
  intro a
  exact map_bind_congr (a.expression.map_preference order order') fun _ _ _ => rfl

theorem map_source_ofRule (order order' : StringOrder) (rule : String) :
    (ofRule order rule).map source = (ofRule order' rule).map source :=
  map_bind_congr_right fun tokens => map_source_ofTokens order order' rule tokens

end Rank

/-! ### All ranks -/

namespace Ranking

theorem map_source_of_mapM (h : ranks.mapM (Rank.withOrder order') = .ok ranks') :
    ranks'.map Rank.source = ranks.map Rank.source := by
  induction ranks generalizing ranks' with
  | nil =>
    obtain rfl := Except.ok.inj h
    rfl
  | cons rank ranks ih =>
    obtain ⟨rank', others, hrank, hothers, rfl⟩ := mapM_cons_eq_ok_iff.1 h
    rw [List.map_cons, List.map_cons, Rank.source_of_withOrder hrank, ih hothers]

/-- The ranks of a list of rules, put under another order, are those that the rules have there. -/
theorem mapM_withOrder_of_ranksOf (h : ranksOf order rules = .ok ranks) (order' : StringOrder) :
    ∃ ranks', ranks.mapM (Rank.withOrder order') = .ok ranks' ∧
      ranksOf order' rules = .ok ranks' := by
  induction rules generalizing ranks with
  | nil =>
    obtain ⟨default, hdefault, rfl⟩ := map_eq_ok_iff.1 h
    obtain ⟨htokens, hdefault⟩ := Rank.ofRule_eq_ok_iff.1 hdefault
    obtain ⟨default', hdefault'⟩ := Rank.exists_withOrder hdefault order'
    refine ⟨[default'], mapM_cons_eq_ok_iff.2 ⟨default', [], hdefault', rfl, rfl⟩, ?_⟩
    rw [Rank.withOrder_eq_ofTokens hdefault order'] at hdefault'
    exact map_eq_ok_iff.2 ⟨default', bind_eq_ok_iff.2 ⟨_, htokens, hdefault'⟩, rfl⟩
  | cons rule rules ih =>
    obtain ⟨tokens, htokens, h⟩ := bind_eq_ok_iff.1 h
    rw [ranksOf, htokens]
    -- The same tokens are read, so the same case of the three applies under the other order.
    split at h
    · split at h
      · next t hlone hlast =>
        obtain ⟨first, hfirst, rfl⟩ := map_eq_ok_iff.1 h
        obtain ⟨first', hfirst'⟩ := Rank.exists_withOrder hfirst order'
        refine ⟨[first'], mapM_cons_eq_ok_iff.2 ⟨first', [], hfirst', rfl, rfl⟩, ?_⟩
        rw [Rank.withOrder_eq_ofTokens hfirst order'] at hfirst'
        simp only [bind, Except.bind, hlone, hlast, if_true, hfirst']
        rfl
      · cases h
    · next hlone =>
      obtain ⟨first, hfirst, h⟩ := bind_eq_ok_iff.1 h
      obtain ⟨others, hothers, rfl⟩ := map_eq_ok_iff.1 h
      obtain ⟨first', hfirst'⟩ := Rank.exists_withOrder hfirst order'
      obtain ⟨others', hothers', hranks⟩ := ih hothers
      refine ⟨first' :: others',
        mapM_cons_eq_ok_iff.2 ⟨first', others', hfirst', hothers', rfl⟩, ?_⟩
      rw [Rank.withOrder_eq_ofTokens hfirst order'] at hfirst'
      simp only [bind, Except.bind, hlone, hfirst', hranks]
      rfl

/-- What is kept of a list of rules, and the first error in them, is the same under all orders. -/
theorem map_source_ranksOf (order order' : StringOrder) (rules : List String) :
    (ranksOf order rules).map (List.map Rank.source) =
      (ranksOf order' rules).map (List.map Rank.source) := by
  induction rules with
  | nil =>
    refine map_bind_congr (Rank.map_source_ofRule order order' Rank.defaultRule) ?_
    intro rank rank' hrank
    exact congrArg (fun s => Except.ok [s]) hrank
  | cons rule rules ih =>
    refine map_bind_congr_right ?_
    intro tokens
    have hfirst := Rank.map_source_ofTokens order order' rule tokens
    split
    · split
      · refine map_bind_congr hfirst ?_
        intro rank rank' hrank
        exact congrArg (fun s => Except.ok [s]) hrank
      · rfl
    · refine map_bind_congr hfirst ?_
      intro rank rank' hrank
      refine map_bind_congr ih ?_
      intro ranks ranks' hranks
      show Except.ok (rank.source :: ranks.map Rank.source) = _
      rw [hrank, hranks]
      rfl

theorem map_source_ofRules (order order' : StringOrder) (rules : List String) :
    (ofRules order rules).map (fun r => r.ranks.map Rank.source) =
      (ofRules order' rules).map fun r => r.ranks.map Rank.source := by
  refine map_bind_congr (map_source_ranksOf order order' rules) ?_
  intro ranks ranks' hranks
  exact congrArg Except.ok hranks

/-- To put a ranking under another order is to read its rules under that order. -/
theorem withOrder_eq_ofRules (h : ofRules order rules = .ok r) (order' : StringOrder) :
    ∃ r', r.withOrder order' = .ok r' ∧ ofRules order' rules = .ok r' := by
  obtain ⟨ranks, hranks, rfl⟩ := map_eq_ok_iff.1 h
  obtain ⟨ranks', hmap, hranks'⟩ := mapM_withOrder_of_ranksOf hranks order'
  exact ⟨⟨order', ranks'⟩, map_eq_ok_iff.2 ⟨ranks', hmap, rfl⟩,
    map_eq_ok_iff.2 ⟨ranks', hranks', rfl⟩⟩

theorem map_source_of_withOrder (h : r.withOrder order' = .ok r') :
    r'.ranks.map Rank.source = r.ranks.map Rank.source := by
  obtain ⟨ranks', hmap, rfl⟩ := map_eq_ok_iff.1 h
  exact map_source_of_mapM hmap

/-- A sequence of orders leads to the ranking that the rules have under the last one. -/
theorem foldlM_withOrder (h : ofRules order rules = .ok r) (orders : List StringOrder) :
    ∃ r', orders.foldlM (fun s order' => s.withOrder order') r = .ok r' ∧
      r'.ranks.map Rank.source = r.ranks.map Rank.source ∧
      ofRules (orders.getLastD order) rules = .ok r' := by
  induction orders generalizing order r with
  | nil => exact ⟨r, rfl, rfl, h⟩
  | cons order' orders ih =>
    obtain ⟨s, hs, hrules⟩ := withOrder_eq_ofRules h order'
    obtain ⟨r', hr', hsource, hlast⟩ := ih hrules
    refine ⟨r', bind_eq_ok_iff.2 ⟨s, hs, hr'⟩, hsource.trans (map_source_of_withOrder hs), ?_⟩
    rw [List.getLastD_cons]
    exact hlast

theorem order_of_ofRules (h : ofRules order rules = .ok r) : r.order = order := by
  obtain ⟨ranks, -, rfl⟩ := map_eq_ok_iff.1 h
  rfl

/-- The rankings there are: those that are read from rules, put under other orders any number of
times. -/
inductive Built : Ranking → Prop
  | read {order : StringOrder} {rules : List String} {r : Ranking}
      (h : ofRules order rules = .ok r) : Built r
  | reorder {order : StringOrder} {r r' : Ranking} (hr : Built r)
      (h : r.withOrder order = .ok r') : Built r'

/-- Every ranking is the one that a list of rules has under its present order. -/
theorem Built.exists_ofRules (h : r.Built) : ∃ rules, ofRules r.order rules = .ok r := by
  induction h with
  | @read order rules r h =>
    rw [← order_of_ofRules h] at h
    exact ⟨rules, h⟩
  | @reorder order r r' _ h ih =>
    obtain ⟨rules, hrules⟩ := ih
    obtain ⟨s, hs, hrules'⟩ := withOrder_eq_ofRules hrules order
    obtain rfl := Except.ok.inj (hs.symm.trans h)
    rw [← order_of_ofRules hrules'] at hrules'
    exact ⟨rules, hrules'⟩

end Ranking

/-- **Another order is as good as a new ranking.** Whatever orders a ranking is put under one after
the other, each time this succeeds; the rules, their tokens and their trees stay as they are; and
candidates compare as under the ranking that is read from the same rules with the last order. -/
theorem withOrder_sequence (h : Ranking.ofRules order rules = .ok r) (orders : List StringOrder) :
    ∃ r', orders.foldlM (fun s order' => s.withOrder order') r = .ok r' ∧
      r'.rules = r.rules ∧ r'.ranks.map Rank.tokens = r.ranks.map Rank.tokens ∧
      r'.ranks.map Rank.arena = r.ranks.map Rank.arena ∧ r'.ranks.length = r.ranks.length ∧
      r'.isDefault = r.isDefault ∧
      ∃ fresh, Ranking.ofRules (orders.getLastD order) rules = .ok fresh ∧
        ∀ v w, r'.compare v w = fresh.compare v w := by
  obtain ⟨r', hr', hsource, hlast⟩ := Ranking.foldlM_withOrder h orders
  have hkept {α : Type} (f : String × List Token × Arena → α) :
      r'.ranks.map (f ∘ Rank.source) = r.ranks.map (f ∘ Rank.source) := by
    rw [← List.map_map, hsource, List.map_map]
  have hrules : r'.rules = r.rules := hkept Prod.fst
  refine ⟨r', hr', hrules, hkept fun s => s.2.1, hkept fun s => s.2.2, ?_, ?_, r', hlast, ?_⟩
  · simpa using congrArg List.length hsource
  · rw [Ranking.isDefault, Ranking.isDefault, hrules]
  · exact fun v w => rfl

/-- Two changes of the order of a ranking with a sorted condition and the default rule. -/
theorem withOrder_sequence_sorted :
    ∃ r r' fresh, Ranking.ofRules .natural ["TYPE:rpm SORT_BY SUFFIX-VERSION"] = .ok r ∧
      [(compareOn String.length), StringOrder.natural].foldlM
        (fun s order' => s.withOrder order') r = .ok r' ∧
      r'.rules = r.rules ∧
      Ranking.ofRules .natural ["TYPE:rpm SORT_BY SUFFIX-VERSION"] = .ok fresh ∧
      ∀ v w, r'.compare v w = fresh.compare v w := by
  obtain ⟨r, hr⟩ := exists_eq_ok_of_isOk
    (x := Ranking.ofRules .natural ["TYPE:rpm SORT_BY SUFFIX-VERSION"]) (by decide +kernel)
  obtain ⟨r', hr', hrules, -, -, -, -, fresh, hfresh, hcompare⟩ :=
    withOrder_sequence hr [compareOn String.length, .natural]
  exact ⟨r, r', fresh, hr, hr', hrules, hfresh, hcompare⟩

end VersionRules
