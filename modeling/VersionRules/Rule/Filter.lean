import VersionRules.Rule.Condition
import VersionRules.Token.Sequence
import VersionRules.Tree.Parser

/-!
# Filters

A filter keeps the candidates that carry one of the listed qualifier values. It is written as
qualifier terms separated by commas. Without a query every candidate is kept, or whatever the
caller decides.

## Main definitions

* `Filter` — a query's tokens and tree, and the test
* `Filter.grammar` — qualifiers and commas
* `Filter.ofQuery`, `Filter.ofQueryOr` — read a query that may be absent
-/

namespace VersionRules

/-- A test of candidates, with the tokens and the tree of the query it was read from. -/
structure Filter where
  tokens : List Token
  arena : Option Arena
  test : Candidate → Bool

namespace Filter

/-- A query is made of qualifiers and commas, and no character is forbidden. -/
def grammar : Grammar :=
  ⟨[.qualifier, .comma], []⟩

/-- Reads a query; `default` is the test without a query. -/
def ofQueryOr (default : Candidate → Bool) (query : Option String) : Except RuleError Filter :=
  match query with
  | none => .ok ⟨[], none, default⟩
  | some text => do
    let tokens ← grammar.tokens text
    let arena ← parse tokens
    let condition ← arena.expression.condition
    return ⟨tokens, some arena, condition.holds⟩

/-- Reads a query, without which every candidate is kept. -/
def ofQuery (query : Option String) : Except RuleError Filter :=
  ofQueryOr (fun _ => true) query

/-- Whether there was no query. -/
def isEmpty (f : Filter) : Bool :=
  f.tokens.isEmpty

end Filter

end VersionRules
