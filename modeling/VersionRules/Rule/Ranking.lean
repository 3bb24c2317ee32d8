import VersionRules.Rule.Preference
import VersionRules.Token.Sequence
import VersionRules.Tree.Parser

/-!
# Rankings

A ranking is a list of rank rules, the most significant first: of two candidates the one is
preferred that the first rule telling them apart prefers. The last rule is always `SUFFIX-VERSION`
alone; it is added if it is missing, and cannot stand earlier, where it would leave nothing to the
rules behind it.

## Main definitions

* `Rank` — a rule with its tokens, its tree and the preference it stands for
* `Ranking` — an order of version strings and a list of ranks
* `Ranking.ofRules` — reads a list of rules
* `Ranking.compare` — the preference of the ranking
* `Ranking.sortBestFirst`, `Ranking.best?` — the preferred candidates of a list
* `Ranking.withOrder` — the same rules under another order of version strings
-/

namespace VersionRules

/-- A rank rule with what was read from it. -/
structure Rank where
  rule : String
  tokens : List Token
  arena : Arena
  preference : Preference

namespace Rank

/-- A rule is made of everything but commas. Lists of rules are written with commas between them,
so that a comma is forbidden even inside quotes. -/
def grammar : Grammar :=
  ⟨[.qualifier, .order, .logic, .lparen, .rparen, .sortBy], [',']⟩

/-- The rule at the end of every ranking. -/
def defaultRule : String :=
  "SUFFIX-VERSION"

/-- The token of a rule that is the order of version strings alone. -/
def loneOrder? : List Token → Option Token
  | [t] => if t.kind = .order then some t else none
  | _ => none

/-- The rank of a rule that was split into tokens. -/
def ofTokens (order : StringOrder) (rule : String) (tokens : List Token) :
    Except RuleError Rank := do
  let arena ← parse tokens
  let preference ← arena.expression.preference order
  return ⟨rule, tokens, arena, preference⟩

/-- Reads a rule. -/
def ofRule (order : StringOrder) (rule : String) : Except RuleError Rank := do
  ofTokens order rule (← grammar.tokens rule)

/-- The same rule under another order of version strings. -/
def withOrder (order : StringOrder) (r : Rank) : Except RuleError Rank := do
  return { r with preference := ← r.arena.expression.preference order }

end Rank

/-- An order of version strings and the ranks of a list of rules. -/
structure Ranking where
  order : StringOrder
  ranks : List Rank

namespace Ranking

/-- The ranks of a list of rules. Rules are read in order up to the first error, and the default
rule is added unless the last rule is of its kind. -/
def ranksOf (order : StringOrder) : List String → Except RuleError (List Rank)
  | [] => do return [← Rank.ofRule order Rank.defaultRule]
  | rule :: rules => do
    let tokens ← Rank.grammar.tokens rule
    match Rank.loneOrder? tokens with
    | some t =>
      if rules.isEmpty then return [← Rank.ofTokens order rule tokens]
      else .error (.atToken .orderNotLast t)
    | none => return (← Rank.ofTokens order rule tokens) :: (← ranksOf order rules)

/-- Reads a list of rules. -/
def ofRules (order : StringOrder) (rules : List String) : Except RuleError Ranking := do
  return ⟨order, ← ranksOf order rules⟩

/-- The rules of a ranking, an added one included. -/
def rules (r : Ranking) : List String :=
  r.ranks.map Rank.rule

/-- Whether a ranking is the default rule alone, spelt as it is when it is added. -/
def isDefault (r : Ranking) : Bool :=
  r.rules == [Rank.defaultRule]

/-- The same rules under another order of version strings, read from the trees that were kept. -/
def withOrder (order : StringOrder) (r : Ranking) : Except RuleError Ranking := do
  return ⟨order, ← r.ranks.mapM (Rank.withOrder order)⟩

/-- What the first rule that tells two candidates apart says, and equal if none does. -/
def compare (r : Ranking) : Preference :=
  (r.ranks.map Rank.preference).foldr compareLex fun _ _ => .eq

/-- The candidates, preferred ones first; candidates of equal rank keep their order. -/
def sortBestFirst (r : Ranking) (candidates : List Candidate) : List Candidate :=
  candidates.mergeSort fun v w => (r.compare w v).isLE

/-- The better of two candidates, and the second one of two of equal rank. -/
def better (r : Ranking) (v w : Candidate) : Candidate :=
  if r.compare v w = .gt then v else w

/-- The preferred candidate, and the last one of several of equal rank. -/
def best? (r : Ranking) : List Candidate → Option Candidate
  | [] => none
  | v :: vs => some (vs.foldl r.better v)

end Ranking

end VersionRules
