import VersionRules.Rule.Condition
import VersionRules.Version.Order

/-!
# Preferences

A rank rule says which of two candidates it prefers. A rule that is a condition prefers the
candidate that meets it; a condition with `SORT_BY` moreover orders two candidates that meet it by
their version strings; and `SUFFIX-VERSION` alone orders all candidates by their version strings.

## Main definitions

* `Preference` — a comparison of candidates, where `greater` means preferred
* `Preference.byVersion`, `Preference.byCondition`, `Preference.byConditionThenVersion` — the three
  kinds
* `Tree.preference` — the preference that a tree stands for, given an order of version strings
-/

namespace VersionRules

/-- A comparison of candidates, where `greater` means that the first one is preferred. -/
abbrev Preference : Type :=
  Candidate → Candidate → Ordering

namespace Preference

/-- Orders candidates by their version strings. -/
def byVersion (order : StringOrder) : Preference := fun v w =>
  order v.version w.version

/-- Prefers a candidate that meets a condition to one that does not. -/
def byCondition (c : Condition) : Preference := fun v w =>
  compare (c.holds v) (c.holds w)

/-- Prefers a candidate that meets a condition to one that does not, and orders two candidates that
meet it by their version strings. -/
def byConditionThenVersion (c : Condition) (order : StringOrder) : Preference := fun v w =>
  match c.holds v, c.holds w with
  | true, true => order v.version w.version
  | false, false => .eq
  | true, false => .gt
  | false, true => .lt

end Preference

namespace Tree

/-- Requires an order, as it stands behind `SORT_BY`. -/
def requireOrder : Tree → Except RuleError Unit
  | missing => .error ⟨.emptyRule, .unknown⟩
  | root _ => .error ⟨.noToken, .unknown⟩
  | leaf t => if t.kind = .order then .ok () else .error (.atToken .notAnOrder t)
  | group t _ | binary t _ _ => .error (.atToken .notAnOrder t)

/-- The preference that a tree stands for, or what is wrong with it. -/
def preference (order : StringOrder) : Tree → Except RuleError Preference
  | missing => .error ⟨.emptyRule, .unknown⟩
  | root _ => .error ⟨.noToken, .unknown⟩
  | group t _ => .error (.atToken .notARank t)
  | leaf t =>
    match t.kind with
    | .order => .ok (.byVersion order)
    | .qualifier q words => .ok (.byCondition (.term q words))
    | _ => .error (.atToken .notARank t)
  | binary t left right =>
    match t.kind with
    | .logic _ | .comma => do return .byCondition (← (binary t left right).condition)
    | .sortBy =>
      if left.isMissing || right.isMissing then .error (.atToken .notARank t)
      else do
        right.requireOrder
        return .byConditionThenVersion (← left.condition) order
    | _ => .error (.atToken .notARank t)

end Tree

end VersionRules
