import VersionRules.Proofs.Rule.Infix
import VersionRules.Proofs.Rule.Ranks
import VersionRules.Proofs.Tree.Unfolding

/-!
# Evaluating the trees of arbitrary arenas

A tree is checked once, when its condition or its preference is asked for, and is evaluated without
a check from then on. The check is strict enough: a tree that passes has a meaning at every node
that is evaluated, however its arena was put together. It is also the same check in both cases. A
tree with a condition has a preference, which compares what the condition says of two candidates;
and a preference that has nothing to do with the order of version strings comes from a condition.

## Main definitions

* `Arena.Tests` — evaluating a node, which has no result at a node without a meaning
* `Arena.conditionNode?` — the node of the condition that a preference depends on

## Main results

* `Arena.Tests.eq_holds` — an evaluation gives what the tree below the node says
* `Arena.Unfolds.tests` — a condition can be evaluated
* `Arena.conditionNode?_of_preference` — what a preference depends on is a condition
* `condition_agrees_with_preference` — conditions and preferences of the same tree
-/

namespace VersionRules

variable {a : Arena} {i : NodeId} {n : Option NodeId} {x : Tree} {v : Candidate} {b : Bool}
  {c : Condition} {order : StringOrder} {p : Preference}

/-! ### Operators with both operands -/

namespace Tree

variable {t : Token} {left right : Tree}

theorem holds_and (ht : t.kind = .logic .and) (hl : left.isMissing = false)
    (hr : right.isMissing = false) :
    (binary t left right).holds v = (left.holds v && right.holds v) := by
  rw [holds, hl, hr, ht]
  rfl

theorem holds_or (ht : t.kind = .logic .or ∨ t.kind = .comma) (hl : left.isMissing = false)
    (hr : right.isMissing = false) :
    (binary t left right).holds v = (left.holds v || right.holds v) := by
  rw [holds, hl, hr]
  rcases ht with ht | ht <;> rw [ht] <;> rfl

/-- What an operator joins to a condition is two conditions. -/
theorem condition_binary_cases (h : (binary t left right).condition = .ok c) :
    ∃ l r, left.condition = .ok l ∧ right.condition = .ok r ∧
      (t.kind = .logic .and ∧ c = .both l r ∨
        (t.kind = .logic .or ∨ t.kind = .comma) ∧ c = .either l r) := by
  rw [condition] at h
  split at h
  · cases h
  · split at h
    · next ht =>
      obtain ⟨l, r, hl, hr, rfl⟩ := operands_of_condition h
      exact ⟨l, r, hl, hr, .inl ⟨ht, rfl⟩⟩
    · next ht =>
      obtain ⟨l, r, hl, hr, rfl⟩ := operands_of_condition h
      exact ⟨l, r, hl, hr, .inr ⟨.inl ht, rfl⟩⟩
    · next ht =>
      obtain ⟨l, r, hl, hr, rfl⟩ := operands_of_condition h
      exact ⟨l, r, hl, hr, .inr ⟨.inr ht, rfl⟩⟩
    · cases h

end Tree

/-! ### Evaluation -/

namespace Arena

/-- Evaluating the node `i` for a candidate gives a result. The right operand is evaluated only if
the left one does not decide. There is no case for a node without a token, for one whose token says
nothing of a candidate, and for an operator without one of its operands. -/
inductive Tests (a : Arena) (v : Candidate) : NodeId → Bool → Prop
  | term {i : NodeId} {t : Token} {q : Qualifier} {words : List String}
      (hi : a.shape? i = some (.leaf t)) (ht : t.kind = .qualifier q words) :
      Tests a v i (v.has q words)
  | andFalse {i l r : NodeId} {t : Token} {priority : Nat}
      (hi : a.shape? i = some (.binary t priority (some l) (some r))) (ht : t.kind = .logic .and)
      (hl : Tests a v l false) : Tests a v i false
  | andTrue {i l r : NodeId} {t : Token} {priority : Nat} {b : Bool}
      (hi : a.shape? i = some (.binary t priority (some l) (some r))) (ht : t.kind = .logic .and)
      (hl : Tests a v l true) (hr : Tests a v r b) : Tests a v i b
  | orTrue {i l r : NodeId} {t : Token} {priority : Nat}
      (hi : a.shape? i = some (.binary t priority (some l) (some r)))
      (ht : t.kind = .logic .or ∨ t.kind = .comma) (hl : Tests a v l true) : Tests a v i true
  | orFalse {i l r : NodeId} {t : Token} {priority : Nat} {b : Bool}
      (hi : a.shape? i = some (.binary t priority (some l) (some r)))
      (ht : t.kind = .logic .or ∨ t.kind = .comma) (hl : Tests a v l false)
      (hr : Tests a v r b) : Tests a v i b

theorem Unfolds.isMissing_eq_false (h : a.Unfolds (some i) x) : x.isMissing = false := by
  cases h <;> rfl

/-- The operands of an operator with both of them. -/
theorem Unfolds.exists_operands {l r : NodeId} {t : Token} {priority : Nat}
    (h : a.Unfolds (some i) x) (hi : a.shape? i = some (.binary t priority (some l) (some r))) :
    ∃ left right, x = .binary t left right ∧ a.Unfolds (some l) left ∧
      a.Unfolds (some r) right := by
  cases h with
  | root hi' | group hi' | leaf hi' => cases hi.symm.trans hi'
  | binary hi' hx hy =>
    cases hi.symm.trans hi'
    exact ⟨_, _, rfl, hx, hy⟩

theorem Unfolds.holds_and {l r : NodeId} {t : Token} {priority : Nat}
    (h : a.Unfolds (some i) x) (hi : a.shape? i = some (.binary t priority (some l) (some r)))
    (ht : t.kind = .logic .and) :
    ∃ left right, a.Unfolds (some l) left ∧ a.Unfolds (some r) right ∧
      ∀ v, x.holds v = (left.holds v && right.holds v) := by
  obtain ⟨left, right, rfl, hleft, hright⟩ := h.exists_operands hi
  exact ⟨left, right, hleft, hright,
    fun v => Tree.holds_and ht hleft.isMissing_eq_false hright.isMissing_eq_false⟩

theorem Unfolds.holds_or {l r : NodeId} {t : Token} {priority : Nat}
    (h : a.Unfolds (some i) x) (hi : a.shape? i = some (.binary t priority (some l) (some r)))
    (ht : t.kind = .logic .or ∨ t.kind = .comma) :
    ∃ left right, a.Unfolds (some l) left ∧ a.Unfolds (some r) right ∧
      ∀ v, x.holds v = (left.holds v || right.holds v) := by
  obtain ⟨left, right, rfl, hleft, hright⟩ := h.exists_operands hi
  exact ⟨left, right, hleft, hright,
    fun v => Tree.holds_or ht hleft.isMissing_eq_false hright.isMissing_eq_false⟩

/-- What is evaluated is what the tree says, be the tree checked or not. -/
theorem Tests.eq_holds (h : a.Tests v i b) (hx : a.Unfolds (some i) x) : b = x.holds v := by
  induction h generalizing x with
  | term hi ht =>
    cases hx with
    | root hi' | group hi' | binary hi' => cases hi.symm.trans hi'
    | leaf hi' =>
      cases hi.symm.trans hi'
      rw [Tree.holds, ht]
  | andFalse hi ht _ ih =>
    obtain ⟨left, right, hleft, -, hholds⟩ := hx.holds_and hi ht
    rw [hholds, ← ih hleft, Bool.false_and]
  | andTrue hi ht _ _ ihl ihr =>
    obtain ⟨left, right, hleft, hright, hholds⟩ := hx.holds_and hi ht
    rw [hholds, ← ihl hleft, ← ihr hright, Bool.true_and]
  | orTrue hi ht _ ih =>
    obtain ⟨left, right, hleft, -, hholds⟩ := hx.holds_or hi ht
    rw [hholds, ← ih hleft, Bool.true_or]
  | orFalse hi ht _ _ ihl ihr =>
    obtain ⟨left, right, hleft, hright, hholds⟩ := hx.holds_or hi ht
    rw [hholds, ← ihl hleft, ← ihr hright, Bool.false_or]

/-- A conjunction is evaluated along its left operand, and its right one if need be. -/
theorem Tests.and {l r : NodeId} {t : Token} {priority : Nat} {b₁ b₂ : Bool}
    (hi : a.shape? i = some (.binary t priority (some l) (some r))) (ht : t.kind = .logic .and)
    (hl : a.Tests v l b₁) (hr : a.Tests v r b₂) : a.Tests v i (b₁ && b₂) := by
  cases b₁ with
  | false => exact .andFalse hi ht hl
  | true => exact .andTrue hi ht hl hr

theorem Tests.or {l r : NodeId} {t : Token} {priority : Nat} {b₁ b₂ : Bool}
    (hi : a.shape? i = some (.binary t priority (some l) (some r)))
    (ht : t.kind = .logic .or ∨ t.kind = .comma) (hl : a.Tests v l b₁) (hr : a.Tests v r b₂) :
    a.Tests v i (b₁ || b₂) := by
  cases b₁ with
  | false => exact .orFalse hi ht hl hr
  | true => exact .orTrue hi ht hl

/-- A tree that stands for a condition can be evaluated, and gives what the condition says. -/
theorem Unfolds.tests (h : a.Unfolds n x) (hc : x.condition = .ok c) :
    ∃ i, n = some i ∧ ∀ v, a.Tests v i (c.holds v) := by
  induction h generalizing c with
  | missing | root | group => cases hc
  | @leaf i t hi =>
    rw [Tree.condition] at hc
    split at hc
    · next q words ht =>
      obtain rfl := Except.ok.inj hc
      exact ⟨i, rfl, fun v => .term hi ht⟩
    · cases hc
  | @binary i t priority left right x y hi _ _ ihx ihy =>
    obtain ⟨l, r, hl, hr, hcases⟩ := Tree.condition_binary_cases hc
    obtain ⟨left, rfl, htestsl⟩ := ihx hl
    obtain ⟨right, rfl, htestsr⟩ := ihy hr
    rcases hcases with ⟨ht, rfl⟩ | ⟨ht, rfl⟩
    · exact ⟨i, rfl, fun v => .and hi ht (htestsl v) (htestsr v)⟩
    · exact ⟨i, rfl, fun v => .or hi ht (htestsl v) (htestsr v)⟩

/-- A tree that stands for a condition is evaluated to what the condition says, and to nothing
else. -/
theorem Unfolds.tests_iff (h : a.Unfolds (some i) x) (hc : x.condition = .ok c) :
    a.Tests v i b ↔ b = c.holds v := by
  constructor
  · intro hb
    rw [hb.eq_holds h, Tree.holds_eq_of_condition hc]
  · rintro rfl
    obtain ⟨i', hi', htests⟩ := h.tests hc
    obtain rfl := Option.some.inj hi'
    exact htests v

/-! ### The condition of a preference -/

/-- The node of the condition that a preference depends on: what stands before `SORT_BY`, and the
whole expression if nothing is sorted. -/
def conditionNode? (a : Arena) : Option NodeId :=
  a.expression?.bind fun i =>
    match a.shape? i with
    | some (.binary t _ left _) => if t.kind = .sortBy then left else some i
    | _ => some i

/-- A condition is evaluated as a whole. -/
theorem conditionNode?_of_condition (hx : a.Unfolds a.expression? x) (hc : x.condition = .ok c) :
    a.Unfolds a.conditionNode? x := by
  rw [conditionNode?]
  cases hi : a.expression? with
  | none => rwa [hi] at hx
  | some i =>
    rw [hi] at hx
    have hnode := hx
    cases hx with
    | root hshape | group hshape | leaf hshape => rwa [Option.bind_some, hshape]
    | @binary _ t priority left right x y hshape =>
      -- What joins conditions is no `SORT_BY`.
      have hkind : t.kind ≠ .sortBy := by
        intro hsort
        obtain ⟨l, r, -, -, ⟨ht, -⟩ | ⟨ht, -⟩⟩ := Tree.condition_binary_cases hc
        · cases hsort.symm.trans ht
        · rcases ht with ht | ht <;> cases hsort.symm.trans ht
      rw [Option.bind_some, hshape]
      dsimp only
      rwa [if_neg hkind]

theorem conditionNode?_of_sortBy {t : Token} {left right : Tree}
    (hx : a.Unfolds a.expression? (.binary t left right)) (ht : t.kind = .sortBy) :
    a.Unfolds a.conditionNode? left := by
  rw [conditionNode?]
  cases hi : a.expression? with
  | none =>
    rw [hi] at hx
    cases hx
  | some i =>
    rw [hi] at hx
    cases hx with
    | binary hshape hleft =>
      rw [Option.bind_some, hshape]
      dsimp only
      rwa [if_pos ht]

/-- Every preference but that of an order alone depends on a condition. -/
theorem conditionNode?_of_preference (hx : a.Unfolds a.expression? x)
    (hp : x.preference order = .ok p) :
    (∃ t, x = .leaf t ∧ t.kind = .order) ∨
      ∃ y c, a.Unfolds a.conditionNode? y ∧ y.condition = .ok c ∧
        (p = .byCondition c ∨ p = .byConditionThenVersion c order) := by
  obtain ⟨t, ht, horder, -⟩ | ⟨c, hc, hp⟩ | ⟨s, left, right, c, rfl, hsort, hc, hp⟩ :=
    Tree.preference_forms hp
  · exact .inl ⟨t, ht, horder⟩
  · exact .inr ⟨x, c, conditionNode?_of_condition hx hc, hc, .inl hp⟩
  · exact .inr ⟨left, c, conditionNode?_of_sortBy hx hsort, hc, .inr hp⟩

end Arena

/-- **Conditions and preferences of one tree.** However an arena without cycles was put together,
its expression is all that is reached from the root. If it stands for a condition, it has a
preference, which prefers what meets the condition; and a preference without an order comes from a
condition. Whichever of the two is asked for, the condition in it can be evaluated for every
candidate, and there is one result, which is what the condition says. -/
theorem condition_agrees_with_preference (hbuilt : a.Built) (hacyclic : a.Acyclic)
    (order : StringOrder) :
    a.Unfolds a.expression? a.expression ∧
      (∀ c, a.expression.condition = .ok c →
        (∃ i, a.expression? = some i ∧ ∀ v b, a.Tests v i b ↔ b = c.holds v) ∧
          ∃ p, a.expression.preference order = .ok p ∧
            ∀ v w, p v w = compare (c.holds v) (c.holds w)) ∧
      (∀ p, a.expression.preference order = .ok p →
        (∀ t, a.expression = .leaf t → t.kind ≠ .order) →
          (∀ t left right, a.expression = .binary t left right → t.kind ≠ .sortBy) →
            ∃ c, a.expression.condition = .ok c) ∧
      ∀ p, a.expression.preference order = .ok p →
        (∃ t, a.expression = .leaf t ∧ t.kind = .order) ∨
          ∃ i c, a.conditionNode? = some i ∧ (a.treeAt i).condition = .ok c ∧
            (p = .byCondition c ∨ p = .byConditionThenVersion c order) ∧
              ∀ v b, a.Tests v i b ↔ b = c.holds v := by
  have hunfolds := Arena.unfolds_expression hbuilt.linked hacyclic
  refine ⟨hunfolds, ?_, ?_, ?_⟩
  · intro c hc
    obtain ⟨i, hi, -⟩ := hunfolds.tests hc
    rw [hi] at hunfolds
    exact ⟨⟨i, hi, fun v b => hunfolds.tests_iff hc⟩, _, Tree.preference_of_condition hc,
      fun v w => rfl⟩
  · intro p hp hleaf hbinary
    obtain ⟨t, ht, horder, -⟩ | ⟨c, hc, -⟩ | ⟨s, left, right, -, hs, hsort, -⟩ :=
      Tree.preference_forms hp
    · exact absurd horder (hleaf t ht)
    · exact ⟨c, hc⟩
    · exact absurd hsort (hbinary s left right hs)
  · intro p hp
    obtain horder | ⟨x, c, hx, hc, hp⟩ := Arena.conditionNode?_of_preference hunfolds hp
    · exact .inl horder
    · obtain ⟨i, hi, -⟩ := hx.tests hc
      rw [hi] at hx
      refine .inr ⟨i, c, hi, ?_, hp, fun v b => hx.tests_iff hc⟩
      rw [hx.treeAt_eq hbuilt.linked hacyclic, hc]

/-- A disjunction of a term with itself, both being one node, beside a `SORT_BY` that was given
up. -/
def Arena.shared : Arena :=
  ⟨#[⟨.root (some 2), none⟩, ⟨.leaf ⟨0, 7, .qualifier .build ["1"]⟩, some 3⟩,
    ⟨.binary ⟨8, 10, .logic .or⟩ 1 (some 1) (some 1), some 0⟩,
    ⟨.binary ⟨11, 18, .sortBy⟩ 3 (some 1) none, none⟩]⟩

theorem Arena.built_shared : shared.Built := by
  have h₁ : Built _ := .tail .refl (.newLeaf ⟨0, 7, .qualifier .build ["1"]⟩)
  have h₂ : Built _ := .tail h₁ (.newBinary ⟨8, 10, .logic .or⟩ rfl)
  have h₃ : Built _ := .tail h₂ (.newBinary ⟨11, 18, .sortBy⟩ rfl)
  have h₄ : Built _ := .tail h₃ (.attach 2 1 (by decide) (by decide))
  have h₅ : Built _ := .tail h₄ (.attach 2 1 (by decide) (by decide))
  have h₆ : Built _ := .tail h₅ (.set .left 3 1 (by decide) (by decide))
  exact .tail h₆ (.pushDown 0 2 (by decide) (by decide))

/-- An operand in two slots and a leftover node do not disturb the agreement. -/
theorem condition_agrees_with_preference_shared :
    Arena.shared.Built ∧ Arena.shared.Acyclic ∧
      ∃ c, Arena.shared.expression.condition = .ok c ∧
        (∃ i, Arena.shared.expression? = some i ∧
          ∀ v b, Arena.shared.Tests v i b ↔ b = c.holds v) ∧
        ∃ p, Arena.shared.expression.preference .natural = .ok p ∧
          ∀ v w, p v w = compare (c.holds v) (c.holds w) := by
  have hacyclic : Arena.shared.Acyclic :=
    Arena.acyclic_of_rank (fun i => if i = 0 then 2 else if i = 1 then 0 else 1) (by decide)
  obtain ⟨c, hc⟩ := exists_eq_ok_of_isOk (x := Arena.shared.expression.condition) (by decide)
  obtain ⟨-, hcondition, -⟩ :=
    condition_agrees_with_preference Arena.built_shared hacyclic .natural
  exact ⟨Arena.built_shared, hacyclic, c, hc, hcondition c hc⟩

end VersionRules
