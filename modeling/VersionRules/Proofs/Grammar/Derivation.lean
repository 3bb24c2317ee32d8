import VersionRules.Proofs.Grammar.Acceptance

/-!
# The tree of a rule

The grammar with two levels of operators derives a tree along with a rule: a disjunction is a
conjunction, or one followed by `OR` or a comma and a disjunction; a conjunction is an atom, or one
followed by `AND` and a conjunction; an atom is a qualifier term or a disjunction in parentheses.
Both levels of operators nest to the right, and parentheses leave no node.

A builder that reads a derived list of tokens, wherever it stands, holds the derived tree below
operators of the level of the derivation, which are still open to the right.

## Main definitions

* `Stratum`, `Derives` — the levels of the grammar, and their tokens with the trees
* `DerivesRule` — the tokens of rules with their trees
* `Builds` — a builder that reads a list of tokens holds a tree, whatever is open around it

## Main results

* `Derives.builds` — a builder that reads a derived list of tokens holds its tree
* `DerivesRule.unique` — a list of tokens has at most one tree
* `derivesRule_iff_parse` — the tree of an accepted list is the one that the grammar derives
-/

namespace VersionRules

/-- The levels of the grammar. -/
inductive Stratum
  | disj
  | conj
  | atom

/-- The operators of a level bind tighter than this. -/
def Stratum.bound : Stratum → Nat
  | disj => 0
  | conj => 1
  | atom => 2

/-- The lists of tokens of each level, with their trees. -/
inductive Derives : Stratum → List Token → Tree → Prop
  | term {t : Token} (ht : t.type = .qualifier) : Derives .atom [t] (.leaf t)
  | parens {l r : Token} {ts : List Token} {tree : Tree} (hl : l.type = .lparen)
      (hts : Derives .disj ts tree) (hr : r.type = .rparen) : Derives .atom (l :: (ts ++ [r])) tree
  | atom {ts : List Token} {tree : Tree} (hts : Derives .atom ts tree) : Derives .conj ts tree
  | and {us vs : List Token} {op : Token} {left right : Tree} (hus : Derives .atom us left)
      (hop : op.kind = .logic .and) (hvs : Derives .conj vs right) :
      Derives .conj (us ++ op :: vs) (.binary op left right)
  | conj {ts : List Token} {tree : Tree} (hts : Derives .conj ts tree) : Derives .disj ts tree
  | or {us vs : List Token} {op : Token} {left right : Tree} (hus : Derives .conj us left)
      (hop : op.kind = .logic .or ∨ op.kind = .comma) (hvs : Derives .disj vs right) :
      Derives .disj (us ++ op :: vs) (.binary op left right)

/-- The lists of tokens that are rules, with their trees. -/
inductive DerivesRule : List Token → Tree → Prop
  | empty : DerivesRule [] .missing
  | order {o : Token} (ho : o.type = .order) : DerivesRule [o] (.leaf o)
  | condition {ts : List Token} {tree : Tree} (hts : Derives .disj ts tree) : DerivesRule ts tree
  | sorted {ts : List Token} {tree : Tree} {s o : Token} (hts : Derives .disj ts tree)
      (hs : s.type = .sortBy) (ho : o.type = .order) :
      DerivesRule (ts ++ [s, o]) (.binary s tree (.leaf o))

variable {k : Stratum} {ts us vs : List Token} {t op : Token} {tree : Tree} {b : Builder}
  {s : Spine}

/-! ### The two grammars derive the same lists -/

theorem joins_of_and (hop : op.kind = .logic .and) : op.Joins :=
  .inl (by simp [Token.type, hop, TokenKind.type])

theorem joins_of_or (hop : op.kind = .logic .or ∨ op.kind = .comma) : op.Joins := by
  rcases hop with hop | hop <;> simp [Token.Joins, Token.type, hop, TokenKind.type]

theorem Derives.phrase (h : Derives k ts tree) : Phrase .expr ts := by
  induction h with
  | term ht => exact .single (.qualifier ht)
  | parens hl _ hr ih => exact .single (.parens hl ih hr)
  | atom _ ih => exact ih
  | and _ hop _ ihus ihvs => exact ihus.join_expr (joins_of_and hop) ihvs
  | conj _ ih => exact ih
  | or _ hop _ ihus ihvs => exact ihus.join_expr (joins_of_or hop) ihvs

theorem DerivesRule.isRule (h : DerivesRule ts tree) : IsRule ts := by
  cases h with
  | empty => exact .empty
  | order ho => exact .order ho
  | condition hts => exact .condition hts.phrase
  | sorted hts hs ho => exact .sorted hts.phrase hs ho

/-- What joins terms is a conjunction or a disjunction. -/
theorem Token.Joins.kind_cases (hop : op.Joins) :
    op.kind = .logic .and ∨ op.kind = .logic .or ∨ op.kind = .comma := by
  obtain ⟨start, stop, kind⟩ := op
  rcases hop with hop | hop <;> cases kind <;> simp_all [Token.type, TokenKind.type]
  next c => cases c <;> simp

/-- A term in front of a disjunction belongs to its first conjunction, or is one of its own. -/
theorem Derives.exists_join (hus : Derives .atom us tree) (hop : op.Joins) {right : Tree}
    (hvs : Derives .disj vs right) : ∃ tree', Derives .disj (us ++ op :: vs) tree' := by
  rcases hop.kind_cases with hand | hor
  · cases hvs with
    | conj hvs => exact ⟨_, .conj (.and hus hand hvs)⟩
    | or hvs hop' hws =>
      -- `AND` binds tighter, so the term goes to what stands before the first `OR`.
      have hjoin := Derives.or (.and hus hand hvs) hop' hws
      rw [List.append_assoc, List.cons_append] at hjoin
      exact ⟨_, hjoin⟩
  · exact ⟨_, .or (.atom hus) hor hvs⟩

theorem Phrase.exists_derives {kind : PhraseKind} (h : Phrase kind ts) :
    ∃ tree, Derives (match kind with | .term => .atom | .expr => .disj) ts tree := by
  induction h with
  | qualifier ht => exact ⟨_, .term ht⟩
  | parens hl _ hr ih =>
    obtain ⟨tree, htree⟩ := ih
    exact ⟨tree, .parens hl htree hr⟩
  | single _ ih =>
    obtain ⟨tree, htree⟩ := ih
    exact ⟨tree, .conj (.atom htree)⟩
  | join _ hop _ ihus ihvs =>
    obtain ⟨left, hleft⟩ := ihus
    obtain ⟨right, hright⟩ := ihvs
    exact hleft.exists_join hop hright

theorem IsRule.exists_derivesRule (h : IsRule ts) : ∃ tree, DerivesRule ts tree := by
  cases h with
  | empty => exact ⟨_, .empty⟩
  | order ho => exact ⟨_, .order ho⟩
  | condition hts =>
    obtain ⟨tree, htree⟩ := hts.exists_derives
    exact ⟨tree, .condition htree⟩
  | sorted hts hs ho =>
    obtain ⟨tree, htree⟩ := hts.exists_derives
    exact ⟨_, .sorted htree hs ho⟩

/-! ### Reading along a derivation -/

theorem priority_of_and (hop : op.kind = .logic .and) : op.priority = 2 := by
  rw [Token.priority, hop]
  rfl

theorem priority_of_or (hop : op.kind = .logic .or ∨ op.kind = .comma) : op.priority = 1 := by
  rcases hop with hop | hop <;> rw [Token.priority, hop] <;> rfl

theorem foldlM_step_cons {b₁ : Builder} (h : b.step t = .ok b₁) :
    (t :: ts).foldlM Builder.step b = ts.foldlM Builder.step b₁ := by
  rw [List.foldlM_cons, h]
  rfl

theorem foldlM_step_append {b₁ : Builder} (h : us.foldlM Builder.step b = .ok b₁) :
    (us ++ vs).foldlM Builder.step b = vs.foldlM Builder.step b₁ := by
  rw [List.foldlM_append, h]
  rfl

/-- Whatever is open around it, a builder that reads the tokens holds the tree: operators of the
level, which are still open to the right, and an operand. -/
def Builds (k : Stratum) (ts : List Token) (tree : Tree) : Prop :=
  ∀ ⦃b : Builder⦄ ⦃s : Spine⦄, b.Shows (.awaiting s) → s.priority ≤ k.bound + 1 →
    ∃ b' ops x, ts.foldlM Builder.step b = .ok b' ∧ b'.Shows (.holding (ops ++ s) x) ∧
      (∀ f ∈ ops, k.bound < f.priority) ∧ (Spine.plug ops x).tree = tree

theorem builds_term (ht : t.type = .qualifier) : Builds .atom [t] (.leaf t) := by
  intro b s hb _
  obtain ⟨b', hb', h'⟩ := hb.step (Reading.step_awaiting_of_leaf (.inl ht))
  exact ⟨b', [], _, foldlM_step_cons hb', h', by simp, rfl⟩

namespace Builds

/-- A closing parenthesis closes the operators that are open behind its opening one. -/
theorem parens {l r : Token} (hl : l.type = .lparen) (hts : Builds .disj ts tree)
    (hr : r.type = .rparen) : Builds .atom (l :: (ts ++ [r])) tree := by
  intro b s hb _
  obtain ⟨b₁, hb₁, h₁⟩ := hb.step (Reading.step_awaiting_of_lparen hl)
  obtain ⟨b₂, ops, x, hb₂, h₂, hops, htree⟩ := hts h₁ (Nat.zero_le 1)
  have hclose := Spine.absorb_append (s := .group b.arena.nodes.size l :: s) (x := x) hops
    (Nat.zero_le 0)
  obtain ⟨b₃, hb₃, h₃⟩ := h₂.step (Reading.step_holding_of_rparen hr hclose)
  -- The parentheses leave no frame and no node behind.
  refine ⟨b₃, [], _, ?_, h₃, by simp, htree⟩
  rw [foldlM_step_cons hb₁, foldlM_step_append hb₂, foldlM_step_cons hb₃]
  rfl

/-- An operator closes those that bind tighter, and nests to the right with those of its level. -/
theorem operator {k' : Stratum} {left right : Tree} (hus : Builds k' us left) (hop : op.Joins)
    (hk' : k'.bound = op.priority) (hk : op.priority = k.bound + 1) (hvs : Builds k vs right) :
    Builds k (us ++ op :: vs) (.binary op left right) := by
  intro b s hb hs
  obtain ⟨b₁, ops₁, x₁, hb₁, h₁, hops₁, rfl⟩ := hus hb (by omega)
  -- The operator closes all that the left operand left open, and nothing further out.
  have hclose := Spine.absorb_append (s := s) (x := x₁) (hk' ▸ hops₁) (hk ▸ hs)
  have hstep : (Reading.holding (ops₁ ++ s) x₁).step b₁.arena.nodes.size op = _ :=
    Reading.step_holding_of_joins hop
  rw [hclose] at hstep
  obtain ⟨b₂, hb₂, h₂⟩ := h₁.step hstep
  obtain ⟨b₃, ops₂, x₂, hb₃, h₃, hops₂, rfl⟩ := hvs h₂ hk.le
  refine ⟨b₃, ops₂ ++ [.operator b₁.arena.nodes.size op (Spine.plug ops₁ x₁)], x₂, ?_, ?_, ?_, ?_⟩
  · rw [foldlM_step_append hb₁, foldlM_step_cons hb₂, hb₃]
  · rwa [List.append_assoc]
  · -- The operator itself stays open, as the outermost of its level.
    intro f hf
    rcases List.mem_append.1 hf with hf | hf
    · exact hops₂ f hf
    · rw [List.mem_singleton.1 hf]
      exact (Nat.lt_succ_self _).trans_eq hk.symm
  · rw [Spine.plug_append]
    rfl

/-- What binds tighter can stand where less is asked for. -/
theorem weaken {k' : Stratum} (h : Builds k' ts tree) (hk : k'.bound = k.bound + 1) :
    Builds k ts tree := by
  intro b s hb hs
  obtain ⟨b', ops, x, hb', h', hops, htree⟩ := h hb (by omega)
  refine ⟨b', ops, x, hb', h', ?_, htree⟩
  intro f hf
  have := hops f hf
  omega

end Builds

/-- **Reading along a derivation.** A builder that reads a derived list holds its tree. -/
theorem Derives.builds (h : Derives k ts tree) : Builds k ts tree := by
  induction h with
  | term ht => exact builds_term ht
  | parens hl _ hr ih => exact ih.parens hl hr
  | atom _ ih => exact ih.weaken rfl
  | and _ hop _ ihus ihvs =>
    exact ihus.operator (joins_of_and hop) (priority_of_and hop).symm (priority_of_and hop) ihvs
  | conj _ ih => exact ih.weaken rfl
  | or _ hop _ ihus ihvs =>
    exact ihus.operator (joins_of_or hop) (priority_of_or hop).symm (priority_of_or hop) ihvs

/-- The expression of an arena is the tree it holds. -/
theorem Arena.Holds.expression_eq {a : Arena} {x : NumberedTree} (h : a.Holds s x) :
    a.expression = (s.plug x).tree := by
  have hroot : a.node? root = some ⟨.root (some (s.plug x).number), none⟩ := h.plug.spine
  have hchild : a.expression? = some (s.plug x).number := by
    rw [expression?, children_of_node? hroot]
    rfl
  rw [expression, hchild]
  exact treeAt_eq_of_storedIn h.plug.operand (List.nodup_append.1 h.plug.nodup).2.1

/-- What is reached from the root of an arena is the root and the tree it holds. -/
theorem Arena.Holds.tree_eq {a : Arena} {x : NumberedTree} (h : a.Holds [] x) :
    a.tree = .root x.tree := by
  -- The root takes one level of the bound, and one node for it is left out of the tree.
  have hsize : (root :: x.numbers).length ≤ a.nodes.size := length_le_size h.nodup h.lt_size
  obtain ⟨depth, hdepth⟩ :=
    Nat.exists_eq_add_one_of_ne_zero (Nat.ne_of_gt (Nat.zero_lt_of_lt hsize))
  have hroot : a.shape? root = some (.root (some x.number)) := shape?_of_node? h.spine
  have hx : a.treeWithin depth x.number = x.tree := by
    apply h.operand.treeWithin_eq
    rw [List.length_cons] at hsize
    omega
  rw [tree, treeAt, hdepth]
  simp only [treeWithin, hroot, hx]

/-- The root of an accepted list is above the expression. -/
theorem tree_of_parse {a : Arena} (h : parse ts = .ok a) : a.tree = .root a.expression := by
  rcases holds_of_parse h with ⟨-, rfl⟩ | ⟨x, hheld, -⟩
  · rfl
  · rw [hheld.tree_eq, Arena.Holds.expression_eq hheld]
    rfl

/-- What the builder of an accepted list holds is the tree of the list. -/
theorem parse_eq_of_holds {x : NumberedTree} (hrule : IsRule ts)
    (hfold : ts.foldlM Builder.step .empty = .ok b) (hb : b.Shows (.holding s x)) :
    ∃ a, parse ts = .ok a ∧ a.expression = (s.plug x).tree := by
  obtain ⟨a, ha⟩ := exists_parse_eq_ok_iff.2 hrule
  refine ⟨a, ha, ?_⟩
  rw [parse_eq_of_foldlM_ok hrule.checkNeighbours_eq_ok hfold] at ha
  split at ha
  · obtain rfl := Except.ok.inj ha
    exact Arena.Holds.expression_eq hb.stored
  · cases ha

theorem DerivesRule.exists_parse (h : DerivesRule ts tree) :
    ∃ a, parse ts = .ok a ∧ a.expression = tree := by
  have hrule := h.isRule
  cases h with
  | empty => exact ⟨.empty, rfl, rfl⟩
  | @order o ho =>
    obtain ⟨b, hb, hshows⟩ := Builder.shows_empty.step (Reading.step_awaiting_of_leaf (.inr ho))
    exact parse_eq_of_holds hrule (foldlM_step_cons hb) hshows
  | condition hts =>
    -- Nothing is open around a whole rule, so the spine is what the condition itself left open.
    obtain ⟨b, ops, x, hb, hshows, -, rfl⟩ := hts.builds Builder.shows_empty (Nat.zero_le 1)
    rw [List.append_nil] at hshows
    exact parse_eq_of_holds hrule hb hshows
  | @sorted ts tree s o hts hs ho =>
    obtain ⟨b₁, ops, x, hb₁, h₁, -, rfl⟩ := hts.builds Builder.shows_empty (Nat.zero_le 1)
    obtain ⟨b₂, hb₂, h₂⟩ := h₁.step (Reading.step_holding_of_sortBy hs)
    obtain ⟨b₃, hb₃, h₃⟩ := h₂.step (Reading.step_awaiting_of_leaf (.inr ho))
    rw [List.append_nil] at h₃
    refine parse_eq_of_holds hrule ?_ h₃
    rw [foldlM_step_append hb₁, foldlM_step_cons hb₂, foldlM_step_cons hb₃]
    rfl

/-- What is read from an accepted list is a tree of the grammar. -/
theorem derivesRule_of_parse {a : Arena} (h : parse ts = .ok a) :
    DerivesRule ts a.expression := by
  obtain ⟨tree, htree⟩ := (exists_parse_eq_ok_iff.1 ⟨a, h⟩).exists_derivesRule
  obtain ⟨a', ha', rfl⟩ := htree.exists_parse
  obtain rfl := Except.ok.inj (h.symm.trans ha')
  exact htree

/-- A list of tokens has at most one tree. -/
theorem DerivesRule.unique {tree' : Tree} (h : DerivesRule ts tree) (h' : DerivesRule ts tree') :
    tree = tree' := by
  -- Both are what the builder holds in the end, and there is only one run of it.
  obtain ⟨a, ha, rfl⟩ := h.exists_parse
  obtain ⟨a', ha', rfl⟩ := h'.exists_parse
  obtain rfl := Except.ok.inj (ha.symm.trans ha')
  rfl

/-- **One grammar, one tree.** A list of tokens is accepted with a tree exactly if the grammar
derives this tree along with it. -/
theorem derivesRule_iff_parse (ts : List Token) (tree : Tree) :
    DerivesRule ts tree ↔ ∃ a, parse ts = .ok a ∧ a.expression = tree := by
  refine ⟨DerivesRule.exists_parse, ?_⟩
  rintro ⟨a, ha, rfl⟩
  exact derivesRule_of_parse ha

end VersionRules
