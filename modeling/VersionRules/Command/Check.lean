import VersionRules.Command.Error

/-!
# Checking rules

Rules are read without being applied, and shown with their tokens and trees. An absent query and an
empty list of rules are not shown; otherwise the list is shown with the rule that is added to it.

## Main definitions

* `CheckedRule` — a rule with its tokens and its tree as they are printed
* `checkRules` — the rules of a query and of a list of rank rules, or the first error in them
* `checkReport` — the report on checked rules
-/

namespace VersionRules

/-- What a rule is for. -/
inductive RuleKind
  | predicate
  | rank
  deriving DecidableEq

/-- The name of a kind of rule. -/
def RuleKind.name : RuleKind → String
  | predicate => "predicate"
  | rank => "rank"

/-- A rule with its tokens and its tree as they are printed. -/
structure CheckedRule where
  kind : RuleKind
  rule : String
  tokens : List String
  tree : String
  deriving DecidableEq

namespace CheckedRule

/-- The query of a filter. -/
def ofFilter (query : String) (f : Filter) : CheckedRule :=
  ⟨.predicate, query, f.tokens.map Token.text, (f.arena.map Arena.text).getD ""⟩

/-- A rule of a ranking. -/
def ofRank (r : Rank) : CheckedRule :=
  ⟨.rank, r.rule, r.tokens.map Token.text, r.arena.text⟩

/-- The lines on a rule: the rule, its tokens and its tree. -/
def report (r : CheckedRule) : String :=
  r.kind.name ++ " " ++ r.rule ++ "\n  tokens: " ++ " | ".intercalate r.tokens ++
    "\n  tree:   " ++ r.tree ++ "\n"

end CheckedRule

/-- The query, if there is one, as a checked rule. -/
def checkQuery : Option String → Except RuleError (List CheckedRule)
  | none => .ok []
  | some query => do return [.ofFilter query (← Filter.ofQuery (some query))]

/-- The rank rules, if there are any, as checked rules. -/
def checkRanks (rules : List String) : Except RuleError (List CheckedRule) := do
  if rules.isEmpty then return []
  else return (← Ranking.ofRules .natural rules).ranks.map .ofRank

/-- The checked rules of a query and of a list of rank rules, or the first error in them. -/
def checkRules (query : Option String) (rules : List String) :
    Except RuleError (List CheckedRule) := do
  return (← checkQuery query) ++ (← checkRanks rules)

/-- The report on checked rules. -/
def checkReport (rules : List CheckedRule) : String :=
  String.join (rules.map CheckedRule.report) ++ "Syntax is valid\n"

end VersionRules
