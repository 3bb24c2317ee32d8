import VersionRules.Proofs.Grammar.Derivation

/-!
# Conditions in infix notation

A tree of terms and operators is written with each operator between its operands. A left operand has
to bind tighter than the operator, and a right one at least as tightly, or else it stands in
parentheses; more parentheses do no harm. What is written in this way is read as the tree, and
nothing else is.

## Main definitions

* `Tree.IsCondition` — the trees of terms and operators that join them
* `Writes` — the tokens that write a tree, with any parentheses beyond those that are needed
* `Tree.formula` — the tokens that write a tree, with no parentheses but those that are needed

## Main results

* `writes_formula`, `Writes.length_formula_le` — a formula writes its tree, and nothing shorter does
* `exists_writes_iff_derives` — a tree is written as the grammar derives it
* `parse_formula` — the tokens that write a tree are those that are read as it
-/

namespace VersionRules

/-- The trees of terms and operators that join them. -/
inductive Tree.IsCondition : Tree → Prop
  | leaf {t : Token} (ht : t.type = .qualifier) : IsCondition (.leaf t)
  | binary {op : Token} {left right : Tree} (hop : op.Joins) (hleft : left.IsCondition)
      (hright : right.IsCondition) : IsCondition (.binary op left right)

/-- A list of tokens writes a tree, and binds with some strength: a term and anything in parentheses
bind tightest, with strength `3`, and all else binds like its topmost operator. -/
inductive Writes : Nat → List Token → Tree → Prop
  | term {t : Token} (ht : t.type = .qualifier) : Writes 3 [t] (.leaf t)
  | parens {p : Nat} {l r : Token} {ts : List Token} {x : Tree} (hl : l.type = .lparen)
      (hts : Writes p ts x) (hr : r.type = .rparen) : Writes 3 (l :: (ts ++ [r])) x
  | operator {p q : Nat} {us vs : List Token} {op : Token} {left right : Tree} (hop : op.Joins)
      (hus : Writes p us left) (hp : op.priority < p) (hvs : Writes q vs right)
      (hq : op.priority ≤ q) : Writes op.priority (us ++ op :: vs) (.binary op left right)

namespace Tree

/-- The strength with which a tree binds when it is written without parentheses around it. -/
def strength : Tree → Nat
  | binary op _ _ => op.priority
  | _ => 3

@[simp]
theorem strength_binary (op : Token) (left right : Tree) :
    (binary op left right).strength = op.priority :=
  rfl

/-- Tokens in parentheses, if these are needed. -/
def enclosed (l r : Token) (needed : Bool) (ts : List Token) : List Token :=
  if needed then l :: (ts ++ [r]) else ts

/-- A tree in infix notation, with parentheses only where they are needed. -/
def formula (l r : Token) : Tree → List Token
  | leaf t => [t]
  | binary op left right =>
    enclosed l r (left.strength ≤ op.priority) (left.formula l r) ++
      op :: enclosed l r (right.strength < op.priority) (right.formula l r)
  | _ => []

end Tree

variable {p q : Nat} {ts : List Token} {k : Stratum} {x left right : Tree} {op l r : Token}

/-! ### Formulas -/

theorem writes_enclosed (hl : l.type = .lparen) (hr : r.type = .rparen) (h : Writes p ts x)
    (needed : Bool) : Writes (if needed then 3 else p) (Tree.enclosed l r needed ts) x := by
  cases needed with
  | true => exact .parens hl h hr
  | false => exact h

/-- Nothing binds tighter than a term. -/
theorem Token.Joins.priority_lt (hop : op.Joins) : op.priority < 3 := by
  rcases hop.kind_cases with hop | hop
  · rw [priority_of_and hop]
    omega
  · rw [priority_of_or hop]
    omega

/-- A formula writes its tree. -/
theorem writes_formula (hl : l.type = .lparen) (hr : r.type = .rparen) (hx : x.IsCondition) :
    Writes x.strength (x.formula l r) x := by
  induction hx with
  | leaf ht => exact .term ht
  | @binary op left right hop _ _ ihl ihr =>
    refine .operator hop (writes_enclosed hl hr ihl _) ?_ (writes_enclosed hl hr ihr _) ?_
    · have := hop.priority_lt
      split <;> simp_all
    · have := hop.priority_lt
      split <;> simp_all
      omega

theorem length_enclosed (l r : Token) (needed : Bool) (ts : List Token) :
    (Tree.enclosed l r needed ts).length = ts.length + if needed then 2 else 0 := by
  cases needed <;> simp [Tree.enclosed]

/-- What writes a tree has no fewer parentheses than its formula, and one more pair if it binds
tighter. -/
theorem Writes.length_formula_le (h : Writes p ts x) (l r : Token) :
    (x.formula l r).length + (if x.strength < p then 2 else 0) ≤ ts.length := by
  induction h with
  | term => simp [Tree.formula, Tree.strength]
  | @parens p _ _ ts x _ _ _ ih =>
    simp only [List.length_cons, List.length_append, List.length_nil]
    split <;> split at ih <;> omega
  | @operator p q us vs op left right _ _ hp _ hq ihl ihr =>
    -- An operand that the formula puts in parentheses binds tighter than it would without.
    have hleft : (left.formula l r).length + (if left.strength ≤ op.priority then 2 else 0) ≤
        us.length := by
      split <;> split at ihl <;> omega
    have hright : (right.formula l r).length + (if right.strength < op.priority then 2 else 0) ≤
        vs.length := by
      split <;> split at ihr <;> omega
    simp only [Tree.strength_binary, Tree.formula, List.length_append, List.length_cons,
      length_enclosed, decide_eq_true_eq, Nat.lt_irrefl, if_false]
    omega

/-! ### Reading a formula -/

theorem Writes.pos (h : Writes p ts x) : 0 < p := by
  cases h with
  | term | parens => omega
  | operator hop => exact hop.priority_pos

/-- What is derived at the innermost level is derived at every level. -/
theorem Derives.of_atom (h : Derives .atom ts x) (k : Stratum) : Derives k ts x := by
  cases k with
  | disj => exact .conj (.atom h)
  | conj => exact .atom h
  | atom => exact h

/-- What is written with some strength is derived at all levels that ask for less. -/
theorem Writes.derives (h : Writes p ts x) (hk : k.bound < p) : Derives k ts x := by
  induction h generalizing k with
  | term ht => exact (Derives.term ht).of_atom k
  | parens hl hts hr ih => exact (Derives.parens hl (ih (k := .disj) hts.pos) hr).of_atom k
  | operator hop _ hp _ hq ihl ihr =>
    rcases hop.kind_cases with hand | hor
    · rw [priority_of_and hand] at hk hp hq
      have hconj : Derives .conj _ _ := .and (ihl (k := .atom) hp) hand (ihr (k := .conj) hq)
      cases k with
      | disj => exact .conj hconj
      | conj => exact hconj
      | atom => exact absurd hk (Nat.lt_irrefl _)
    · rw [priority_of_or hor] at hk hp hq
      cases k with
      | disj => exact .or (ihl (k := .conj) hp) hor (ihr (k := .disj) hq)
      | conj | atom => simp [Stratum.bound] at hk

/-- What is derived at a level is written with more strength than it asks for. -/
theorem Derives.exists_writes (h : Derives k ts x) : ∃ p, k.bound < p ∧ Writes p ts x := by
  induction h with
  | term ht => exact ⟨3, by decide, .term ht⟩
  | parens hl _ hr ih =>
    obtain ⟨p, -, hts⟩ := ih
    exact ⟨3, by decide, .parens hl hts hr⟩
  | atom _ ih | conj _ ih =>
    obtain ⟨p, hp, hts⟩ := ih
    exact ⟨p, Nat.lt_of_succ_lt hp, hts⟩
  | and _ hop _ ihl ihr =>
    obtain ⟨p, hp, hus⟩ := ihl
    obtain ⟨q, hq, hvs⟩ := ihr
    have hpriority := priority_of_and hop
    exact ⟨_, hpriority ▸ by decide, .operator (joins_of_and hop) hus (hpriority ▸ hp) hvs
      (hpriority ▸ hq)⟩
  | or _ hop _ ihl ihr =>
    obtain ⟨p, hp, hus⟩ := ihl
    obtain ⟨q, hq, hvs⟩ := ihr
    have hpriority := priority_of_or hop
    exact ⟨_, hpriority ▸ by decide, .operator (joins_of_or hop) hus (hpriority ▸ hp) hvs
      (hpriority ▸ hq)⟩

/-- A condition is written as the grammar derives it. -/
theorem exists_writes_iff_derives : (∃ p, Writes p ts x) ↔ Derives .disj ts x := by
  constructor
  · rintro ⟨p, h⟩
    exact h.derives h.pos
  · intro h
    obtain ⟨p, -, h⟩ := h.exists_writes
    exact ⟨p, h⟩

theorem Tree.IsCondition.type_of_leaf {t : Token} (h : (Tree.leaf t).IsCondition) :
    t.type = .qualifier := by
  cases h with
  | leaf ht => exact ht

/-- A rule whose tree is a condition is a condition. -/
theorem DerivesRule.derives (h : DerivesRule ts x) (hx : x.IsCondition) : Derives .disj ts x := by
  cases h with
  | empty => cases hx
  | order ho => cases ho.symm.trans hx.type_of_leaf
  | condition hts => exact hts
  | sorted _ hs _ =>
    cases hx with
    | binary hop => rcases hop with hop | hop <;> cases hs.symm.trans hop

/-- **Conditions can be written down.** Every tree of terms and operators is written by its formula,
which has parentheses only where they are needed. The lists of tokens that write it, with any more
parentheses around operands and around the whole, are those that are read as it; and they are read
as the left operand of `SORT_BY` if this and an order follow. -/
theorem parse_formula (hx : x.IsCondition) (hl : l.type = .lparen) (hr : r.type = .rparen) :
    (∃ p, Writes p (x.formula l r) x) ∧
      ∀ ts, ((∃ p, Writes p ts x) ↔ ∃ a, parse ts = .ok a ∧ a.tree = .root x) ∧
        ∀ s o : Token, s.type = .sortBy → o.type = .order → (∃ p, Writes p ts x) →
          ∃ a, parse (ts ++ [s, o]) = .ok a ∧ a.tree = .root (.binary s x (.leaf o)) := by
  have htree : ∀ ts y, DerivesRule ts y ↔ ∃ a, parse ts = .ok a ∧ a.tree = .root y := by
    intro ts y
    rw [derivesRule_iff_parse]
    refine exists_congr fun a => and_congr_right fun ha => ?_
    rw [tree_of_parse ha, Tree.root.injEq]
  refine ⟨⟨_, writes_formula hl hr hx⟩, fun ts => ⟨?_, ?_⟩⟩
  · rw [exists_writes_iff_derives, ← htree]
    exact ⟨.condition, fun h => h.derives hx⟩
  · intro s o hs ho hts
    exact (htree _ _).1 (.sorted (exists_writes_iff_derives.1 hts) hs ho)

/-- Operators of one level nest to the left only by parentheses; those around the other operands are
not seen. -/
theorem parse_formula_left_nested :
    ∃ (l r op : Token) (x y z : Token) (tree : Tree), tree.IsCondition ∧ l.type = .lparen ∧
      r.type = .rparen ∧ op.kind = .logic .or ∧
      tree = .binary op (.binary op (.leaf x) (.leaf y)) (.leaf z) ∧
      tree.formula l r = [l, x, op, y, r, op, z] ∧
      ∃ a, parse [l, l, l, x, r, op, y, r, r, op, l, z, r] = .ok a ∧ a.tree = .root tree := by
  have hbuild (start : Nat) (word : String) :
      (⟨start, start + 7, .qualifier .build [word]⟩ : Token).type = .qualifier := rfl
  have hop : (⟨0, 2, .logic .or⟩ : Token).Joins := .inl rfl
  have htree : Tree.IsCondition (.binary _ (.binary _ (.leaf _) (.leaf _)) (.leaf _)) :=
    .binary hop (.binary hop (.leaf (hbuild 0 "1")) (.leaf (hbuild 0 "2"))) (.leaf (hbuild 0 "3"))
  have hl : (⟨0, 1, .lparen⟩ : Token).type = .lparen := rfl
  have hr : (⟨0, 1, .rparen⟩ : Token).type = .rparen := rfl
  have hxy := Writes.operator hop (.parens hl (.term (hbuild 0 "1")) hr) (by decide)
    (.term (hbuild 0 "2")) (by decide)
  have hall := Writes.operator hop (.parens hl (.parens hl hxy hr) hr) (by decide)
    (.parens hl (.term (hbuild 0 "3")) hr) (by decide)
  refine ⟨_, _, _, _, _, _, _, htree, hl, hr, rfl, rfl, rfl, ?_⟩
  exact ((parse_formula htree hl hr).2 _).1.1 ⟨_, hall⟩

end VersionRules
