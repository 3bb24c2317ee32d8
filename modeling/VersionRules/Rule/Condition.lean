import VersionRules.Candidate.Basic
import VersionRules.Tree.Basic

/-!
# Conditions

A condition asks for qualifier values and joins such terms by "and" and "or"; a comma is another
spelling of "or". A tree stands for a condition if its leaves are qualifier terms and all its other
nodes are connectives with both operands.

## Main definitions

* `Condition`, `Condition.holds` — conditions, and which candidates meet them
* `Tree.condition` — the condition a tree stands for
* `Tree.holds` — the same without the check, where anything but a condition holds of no candidate

## Main results

* `Tree.holds_eq_of_condition` — the two agree on trees that stand for a condition
-/

namespace VersionRules

/-- What a candidate can be asked for. -/
inductive Condition
  /-- a value of a qualifier -/
  | term (q : Qualifier) (words : List String)
  | both (left right : Condition)
  | either (left right : Condition)
  deriving DecidableEq

/-- Whether a candidate meets a condition. -/
def Condition.holds (v : Candidate) : Condition → Bool
  | term q words => v.has q words
  | both left right => left.holds v && right.holds v
  | either left right => left.holds v || right.holds v

namespace Tree

/-- Whether a candidate meets what a tree asks for. A tree that is no condition, such as one with a
missing operand, is met by none. -/
def holds (v : Candidate) : Tree → Bool
  | leaf t =>
    match t.kind with
    | .qualifier q words => v.has q words
    | _ => false
  | binary t left right =>
    if left.isMissing || right.isMissing then false
    else
      match t.kind with
      | .logic .and => left.holds v && right.holds v
      | .logic .or | .comma => left.holds v || right.holds v
      | _ => false
  | missing | root _ | group _ _ => false

/-- The condition that a tree stands for, or what is wrong with it. -/
def condition : Tree → Except RuleError Condition
  | missing => .error ⟨.emptyRule, .unknown⟩
  | root _ => .error ⟨.noToken, .unknown⟩
  | group t _ => .error (.atToken .notACondition t)
  | leaf t =>
    match t.kind with
    | .qualifier q words => .ok (.term q words)
    | _ => .error (.atToken .notACondition t)
  | binary t left right =>
    if left.isMissing || right.isMissing then .error (.atToken .notACondition t)
    else
      match t.kind with
      | .logic .and => do return .both (← left.condition) (← right.condition)
      | .logic .or | .comma => do return .either (← left.condition) (← right.condition)
      | _ => .error (.atToken .notACondition t)

/-- Two operands that are joined to a condition stand for conditions themselves. -/
theorem operands_of_condition {left right : Tree} {join : Condition → Condition → Condition}
    {c : Condition}
    (h : (do return join (← left.condition) (← right.condition) : Except RuleError Condition) =
      .ok c) :
    ∃ l r, left.condition = .ok l ∧ right.condition = .ok r ∧ join l r = c := by
  cases hl : left.condition with
  | error e => simp [hl, bind, Except.bind] at h
  | ok l =>
    cases hr : right.condition with
    | error e => simp [hl, hr, bind, Except.bind] at h
    | ok r =>
      rw [hl, hr] at h
      exact ⟨l, r, rfl, rfl, Except.ok.inj h⟩

/-- On a tree that stands for a condition, both ways of evaluating it agree. -/
theorem holds_eq_of_condition {t : Tree} {c : Condition} (h : t.condition = .ok c)
    (v : Candidate) : t.holds v = c.holds v := by
  induction t generalizing c with
  | missing | root | group => simp [condition] at h
  | leaf t =>
    simp only [condition] at h
    split at h
    · next q words hk =>
      obtain rfl := Except.ok.inj h
      simp [holds, hk, Condition.holds]
    · simp at h
  | binary t left right ihl ihr =>
    simp only [condition] at h
    split at h
    · simp at h
    · next hpresent =>
      split at h
      · next hk =>
        obtain ⟨l, r, hl, hr, rfl⟩ := operands_of_condition h
        simp [holds, hpresent, hk, Condition.holds, ihl hl, ihr hr]
      · next hk =>
        obtain ⟨l, r, hl, hr, rfl⟩ := operands_of_condition h
        simp [holds, hpresent, hk, Condition.holds, ihl hl, ihr hr]
      · next hk =>
        obtain ⟨l, r, hl, hr, rfl⟩ := operands_of_condition h
        simp [holds, hpresent, hk, Condition.holds, ihl hl, ihr hr]
      · simp at h

end Tree

end VersionRules
