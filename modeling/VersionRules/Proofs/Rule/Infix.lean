import VersionRules.Proofs.Grammar.Derivation
import VersionRules.Rule.Preference

/-!
# The infix reading of a rule

A condition is read like any formula in infix notation: parentheses group, `AND` binds tighter than
`OR` and the comma, and both of the latter say "or". Nothing is said of how operators of one level
nest; a condition has one reading all the same, because "and" and "or" are associative.

A rule ranks two candidates by the reading of its condition. The preference that a tree stands for
is this one, and so is the condition.

## Main definitions

* `Reads` — the lists of tokens of each level, with what they say of a candidate
* `verdict` — what a condition says of two candidates
* `Ranks` — the rules, with what they say of two candidates

## Main results

* `Reads.standsFor` — every reading is that of a derived tree
* `Derives.reads_iff` — a condition has one reading
* `preference_ranks` — the preference and the condition of an accepted list are its readings
-/

namespace VersionRules

/-- What a list of tokens of each level says of a candidate. -/
inductive Reads : Stratum → List Token → (Candidate → Bool) → Prop
  | term {t : Token} {q : Qualifier} {words : List String} (ht : t.kind = .qualifier q words) :
      Reads .atom [t] fun v => v.has q words
  | parens {l r : Token} {ts : List Token} {f : Candidate → Bool} (hl : l.type = .lparen)
      (hts : Reads .disj ts f) (hr : r.type = .rparen) : Reads .atom (l :: (ts ++ [r])) f
  | atom {ts : List Token} {f : Candidate → Bool} (hts : Reads .atom ts f) : Reads .conj ts f
  | and {us vs : List Token} {op : Token} {f g : Candidate → Bool} (hus : Reads .conj us f)
      (hop : op.kind = .logic .and) (hvs : Reads .conj vs g) :
      Reads .conj (us ++ op :: vs) fun v => f v && g v
  | conj {ts : List Token} {f : Candidate → Bool} (hts : Reads .conj ts f) : Reads .disj ts f
  | or {us vs : List Token} {op : Token} {f g : Candidate → Bool} (hus : Reads .disj us f)
      (hop : op.kind = .logic .or ∨ op.kind = .comma) (hvs : Reads .disj vs g) :
      Reads .disj (us ++ op :: vs) fun v => f v || g v

/-- What a condition says of two candidates: the one that meets it is preferred, `tie` decides
between two that do, and two that do not are equal. -/
def verdict (c : Candidate → Bool) (tie : Candidate → Candidate → Ordering) (v w : Candidate) :
    Ordering :=
  match c v, c w with
  | true, false => .gt
  | false, true => .lt
  | true, true => tie v w
  | false, false => .eq

/-- What a rule says of two candidates, for an order of version strings. -/
inductive Ranks (order : StringOrder) : List Token → (Candidate → Candidate → Ordering) → Prop
  | order {o : Token} (ho : o.kind = .order) : Ranks order [o] fun v w => order v.version w.version
  | condition {ts : List Token} {c : Candidate → Bool} (hts : Reads .disj ts c) :
      Ranks order ts (verdict c fun _ _ => .eq)
  | sorted {ts : List Token} {s o : Token} {c : Candidate → Bool} (hts : Reads .disj ts c)
      (hs : s.kind = .sortBy) (ho : o.kind = .order) :
      Ranks order (ts ++ [s, o]) (verdict c fun v w => order v.version w.version)

variable {k : Stratum} {ts us vs : List Token} {t op s o : Token} {tree left right : Tree}
  {c : Condition} {f g : Candidate → Bool} {order : StringOrder}

/-! ### Conditions of joined trees -/

namespace Tree

theorem condition_leaf {q : Qualifier} {words : List String} (ht : t.kind = .qualifier q words) :
    (leaf t).condition = .ok (.term q words) := by
  simp only [condition, ht]

theorem isMissing_eq_false (h : tree.condition = .ok c) : tree.isMissing = false := by
  cases tree with
  | missing => cases h
  | root | leaf | group | binary => rfl

theorem condition_and {l r : Condition} (hop : op.kind = .logic .and)
    (hl : left.condition = .ok l) (hr : right.condition = .ok r) :
    (binary op left right).condition = .ok (.both l r) := by
  rw [condition, isMissing_eq_false hl, isMissing_eq_false hr, hop, hl, hr]
  rfl

theorem condition_or {l r : Condition} (hop : op.kind = .logic .or ∨ op.kind = .comma)
    (hl : left.condition = .ok l) (hr : right.condition = .ok r) :
    (binary op left right).condition = .ok (.either l r) := by
  rw [condition, isMissing_eq_false hl, isMissing_eq_false hr]
  rcases hop with hop | hop <;> rw [hop, hl, hr] <;> rfl

end Tree

/-! ### Derived trees stand for readings -/

theorem exists_qualifier_of_type (ht : t.type = .qualifier) :
    ∃ q words, t.kind = .qualifier q words := by
  obtain ⟨start, stop, kind⟩ := t
  cases kind <;> simp_all [Token.type, TokenKind.type]

/-- A derived tree stands for a condition, and this is a reading of the tokens. -/
theorem Derives.exists_condition (h : Derives k ts tree) :
    ∃ c, tree.condition = .ok c ∧ Reads k ts c.holds := by
  induction h with
  | term ht =>
    obtain ⟨q, words, hkind⟩ := exists_qualifier_of_type ht
    exact ⟨_, Tree.condition_leaf hkind, .term hkind⟩
  | parens hl _ hr ih =>
    obtain ⟨c, hc, hreads⟩ := ih
    exact ⟨c, hc, .parens hl hreads hr⟩
  | atom _ ih =>
    obtain ⟨c, hc, hreads⟩ := ih
    exact ⟨c, hc, .atom hreads⟩
  | and _ hop _ ihus ihvs =>
    obtain ⟨l, hl, hus⟩ := ihus
    obtain ⟨r, hr, hvs⟩ := ihvs
    exact ⟨_, Tree.condition_and hop hl hr, .and (.atom hus) hop hvs⟩
  | conj _ ih =>
    obtain ⟨c, hc, hreads⟩ := ih
    exact ⟨c, hc, .conj hreads⟩
  | or _ hop _ ihus ihvs =>
    obtain ⟨l, hl, hus⟩ := ihus
    obtain ⟨r, hr, hvs⟩ := ihvs
    exact ⟨_, Tree.condition_or hop hl hr, .or (.conj hus) hop hvs⟩

/-! ### Readings come from derived trees -/

/-- Some derived tree of the tokens stands for a condition that says the same. -/
def StandsFor (k : Stratum) (ts : List Token) (f : Candidate → Bool) : Prop :=
  ∃ tree c, Derives k ts tree ∧ tree.condition = .ok c ∧ c.holds = f

namespace StandsFor

/-- Two conjunctions with `AND` between them are one, in which the operators nest to the right. -/
theorem and (hus : StandsFor .conj us f) (hop : op.kind = .logic .and)
    (hvs : StandsFor .conj vs g) : StandsFor .conj (us ++ op :: vs) fun v => f v && g v := by
  obtain ⟨left, l, hleft, hl, rfl⟩ := hus
  generalize hk : Stratum.conj = k at hleft
  induction hleft generalizing l with
  | term | parens | conj | or => cases hk
  | atom hus =>
    obtain ⟨right, r, hright, hr, rfl⟩ := hvs
    exact ⟨_, _, .and hus hop hright, Tree.condition_and hop hl hr, rfl⟩
  | and hus hop' hws _ ih =>
    -- `(u AND w) AND v` and `u AND (w AND v)` say the same, and only the latter is derived.
    obtain ⟨l₁, hl₁, -⟩ := hus.exists_condition
    obtain ⟨l₂, hl₂, -⟩ := hws.exists_condition
    obtain rfl := Except.ok.inj (hl.symm.trans (Tree.condition_and hop' hl₁ hl₂))
    obtain ⟨right, r, hright, hr, hholds⟩ := ih l₂ hl₂ rfl
    refine ⟨_, _, ?_, Tree.condition_and hop' hl₁ hr, ?_⟩
    · rw [List.append_assoc]
      exact .and hus hop' hright
    · funext v
      exact (congrArg (l₁.holds v && ·) (congrFun hholds v)).trans (Bool.and_assoc ..).symm

/-- Two disjunctions with `OR` or a comma between them are one. -/
theorem or (hus : StandsFor .disj us f) (hop : op.kind = .logic .or ∨ op.kind = .comma)
    (hvs : StandsFor .disj vs g) : StandsFor .disj (us ++ op :: vs) fun v => f v || g v := by
  obtain ⟨left, l, hleft, hl, rfl⟩ := hus
  generalize hk : Stratum.disj = k at hleft
  induction hleft generalizing l with
  | term | parens | atom | and => cases hk
  | conj hus =>
    obtain ⟨right, r, hright, hr, rfl⟩ := hvs
    exact ⟨_, _, .or hus hop hright, Tree.condition_or hop hl hr, rfl⟩
  | or hus hop' hws _ ih =>
    obtain ⟨l₁, hl₁, -⟩ := hus.exists_condition
    obtain ⟨l₂, hl₂, -⟩ := hws.exists_condition
    obtain rfl := Except.ok.inj (hl.symm.trans (Tree.condition_or hop' hl₁ hl₂))
    obtain ⟨right, r, hright, hr, hholds⟩ := ih l₂ hl₂ rfl
    refine ⟨_, _, ?_, Tree.condition_or hop' hl₁ hr, ?_⟩
    · rw [List.append_assoc]
      exact .or hus hop' hright
    · funext v
      exact (congrArg (l₁.holds v || ·) (congrFun hholds v)).trans (Bool.or_assoc ..).symm

end StandsFor

/-- However the operators of a reading nest, some derived tree says the same. -/
theorem Reads.standsFor (h : Reads k ts f) : StandsFor k ts f := by
  induction h with
  | @term t q words ht =>
    have htype : t.type = .qualifier := by rw [Token.type, ht, TokenKind.type]
    exact ⟨_, _, .term htype, Tree.condition_leaf ht, rfl⟩
  | parens hl _ hr ih =>
    obtain ⟨tree, c, htree, hc, hholds⟩ := ih
    exact ⟨tree, c, .parens hl htree hr, hc, hholds⟩
  | atom _ ih =>
    obtain ⟨tree, c, htree, hc, hholds⟩ := ih
    exact ⟨tree, c, .atom htree, hc, hholds⟩
  | and _ hop _ ihus ihvs => exact ihus.and hop ihvs
  | conj _ ih =>
    obtain ⟨tree, c, htree, hc, hholds⟩ := ih
    exact ⟨tree, c, .conj htree, hc, hholds⟩
  | or _ hop _ ihus ihvs => exact ihus.or hop ihvs

/-- A list of tokens that is a condition has one reading. -/
theorem Derives.reads_iff (h : Derives .disj ts tree) (hc : tree.condition = .ok c) :
    Reads .disj ts f ↔ f = c.holds := by
  constructor
  · intro hreads
    obtain ⟨tree', c', htree', hc', rfl⟩ := hreads.standsFor
    -- Both trees are derived from the same tokens, so they are the same.
    obtain rfl := DerivesRule.unique (.condition h) (.condition htree')
    obtain rfl := Except.ok.inj (hc.symm.trans hc')
    rfl
  · rintro rfl
    obtain ⟨c', hc', hreads⟩ := h.exists_condition
    obtain rfl := Except.ok.inj (hc.symm.trans hc')
    exact hreads

/-! ### Preferences of rules -/

theorem Preference.byCondition_eq_verdict (c : Condition) :
    byCondition c = verdict c.holds fun _ _ => .eq := by
  funext v w
  simp only [byCondition, verdict]
  cases c.holds v <;> cases c.holds w <;> rfl

theorem Preference.byConditionThenVersion_eq_verdict (c : Condition) (order : StringOrder) :
    byConditionThenVersion c order = verdict c.holds (byVersion order) := by
  funext v w
  simp only [byConditionThenVersion, verdict]
  cases c.holds v <;> cases c.holds w <;> rfl

namespace Tree

/-- A tree that stands for a condition prefers what meets it. -/
theorem preference_of_condition (h : tree.condition = .ok c) :
    tree.preference order = .ok (.byCondition c) := by
  cases tree with
  | missing | root | group => cases h
  | leaf t =>
    obtain ⟨start, stop, kind⟩ := t
    cases kind with
    | qualifier q words =>
      obtain rfl := Except.ok.inj h
      rfl
    | _ => cases h
  | binary t left right =>
    obtain ⟨start, stop, kind⟩ := t
    cases kind with
    | logic | comma =>
      rw [preference, h]
      rfl
    | _ =>
      -- No other operator joins conditions, whatever its operands are.
      rw [condition] at h
      split at h <;> cases h

theorem preference_sorted (hs : s.kind = .sortBy) (ho : o.kind = .order)
    (h : tree.condition = .ok c) :
    (binary s tree (.leaf o)).preference order = .ok (.byConditionThenVersion c order) := by
  rw [preference, hs, isMissing_eq_false h, requireOrder, if_pos ho, h]
  rfl

end Tree

theorem kind_of_type_order (ho : o.type = .order) : o.kind = .order := by
  obtain ⟨start, stop, kind⟩ := o
  cases kind <;> first | rfl | cases ho

theorem kind_of_type_sortBy (hs : s.type = .sortBy) : s.kind = .sortBy := by
  obtain ⟨start, stop, kind⟩ := s
  cases kind <;> first | rfl | cases hs

/-- The tree of a rule stands for what the rule says of two candidates. -/
theorem DerivesRule.exists_preference (h : DerivesRule ts tree) (hts : ts ≠ [])
    (order : StringOrder) : ∃ p, tree.preference order = .ok p ∧ Ranks order ts p := by
  cases h with
  | empty => exact absurd rfl hts
  | @order o ho =>
    have hkind := kind_of_type_order ho
    exact ⟨.byVersion order, by rw [Tree.preference, hkind], .order hkind⟩
  | condition hderives =>
    obtain ⟨c, hc, hreads⟩ := hderives.exists_condition
    exact ⟨_, Tree.preference_of_condition hc,
      Preference.byCondition_eq_verdict c ▸ .condition hreads⟩
  | sorted hderives hs ho =>
    obtain ⟨c, hc, hreads⟩ := hderives.exists_condition
    have hs := kind_of_type_sortBy hs
    have ho := kind_of_type_order ho
    exact ⟨_, Tree.preference_sorted hs ho hc,
      Preference.byConditionThenVersion_eq_verdict c order ▸ .sorted hreads hs ho⟩

/-- What a rule says of two candidates comes from the tree of the rule. -/
theorem Ranks.exists_derivesRule {p : Preference} (h : Ranks order ts p) :
    ∃ tree, DerivesRule ts tree ∧ tree.preference order = .ok p := by
  cases h with
  | @order o ho =>
    have htype : o.type = .order := by rw [Token.type, ho, TokenKind.type]
    refine ⟨_, .order htype, ?_⟩
    rw [Tree.preference, ho]
    rfl
  | condition hreads =>
    obtain ⟨tree, c, htree, hc, rfl⟩ := hreads.standsFor
    rw [← Preference.byCondition_eq_verdict]
    exact ⟨tree, .condition htree, Tree.preference_of_condition hc⟩
  | @sorted ts s o f hreads hs ho =>
    obtain ⟨tree, c, htree, hc, rfl⟩ := hreads.standsFor
    have hs' : s.type = .sortBy := by rw [Token.type, hs, TokenKind.type]
    have ho' : o.type = .order := by rw [Token.type, ho, TokenKind.type]
    refine ⟨_, .sorted htree hs' ho', ?_⟩
    rw [Tree.preference_sorted hs ho hc, Preference.byConditionThenVersion_eq_verdict]
    rfl

/-- **The meaning of a rule.** The tree of an accepted list of tokens ranks candidates as the infix
reading of the list does, which is the only one. If no order is asked for, the tree stands for a
condition, which holds of a candidate as the infix reading says. -/
theorem preference_ranks {a : Arena} (h : parse ts = .ok a) (hts : ts ≠ [])
    (order : StringOrder) :
    (∃ p, a.expression.preference order = .ok p ∧ ∀ q, Ranks order ts q ↔ q = p) ∧
      ((∀ t ∈ ts, t.kind ≠ .order) → ∃ c, a.expression.condition = .ok c ∧
        ∀ f, Reads .disj ts f ↔ f = c.holds) := by
  have hderives := derivesRule_of_parse h
  constructor
  · obtain ⟨p, hp, hranks⟩ := hderives.exists_preference hts order
    refine ⟨p, hp, ?_⟩
    intro q
    constructor
    · intro hq
      obtain ⟨tree, htree, hq⟩ := hq.exists_derivesRule
      rw [← hderives.unique htree, hp] at hq
      exact (Except.ok.inj hq).symm
    · rintro rfl
      exact hranks
  · intro hno
    -- Of the four forms of a rule, two have an order among their tokens and one has no tokens.
    generalize a.expression = tree at hderives
    cases hderives with
    | empty => exact absurd rfl hts
    | @order o ho => exact absurd (kind_of_type_order ho) (hno o (List.mem_singleton_self o))
    | condition hderives =>
      obtain ⟨c, hc, -⟩ := hderives.exists_condition
      exact ⟨c, hc, fun f => hderives.reads_iff hc⟩
    | @sorted us left s o hus hs ho => exact absurd (kind_of_type_order ho) (hno o (by simp))

/-- The meaning of `QUALITY:RELEASED OR TYPE:WILDFLY AND MILESTONE:ER1`. -/
theorem preference_ranks_mixed :
    ∃ ts a, ts = [⟨0, 16, .qualifier .quality ["RELEASED"]⟩, ⟨17, 19, .logic .or⟩,
        ⟨20, 32, .qualifier .type ["WILDFLY"]⟩, ⟨33, 36, .logic .and⟩,
        ⟨37, 50, .qualifier .milestone ["ER1"]⟩] ∧
      parse ts = .ok a ∧
      (∃ p, a.expression.preference .natural = .ok p ∧ ∀ q, Ranks .natural ts q ↔ q = p) ∧
      ∃ c, a.expression.condition = .ok c ∧ ∀ f, Reads .disj ts f ↔ f = c.holds := by
  refine ⟨_, _, rfl, rfl, ?_, ?_⟩
  · exact (preference_ranks rfl (List.cons_ne_nil _ _) .natural).1
  · exact (preference_ranks rfl (List.cons_ne_nil _ _) .natural).2 (by decide)

end VersionRules
