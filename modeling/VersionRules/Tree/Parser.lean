import VersionRules.Tree.Arena

/-!
# From tokens to a tree

The tokens of a rule are checked against a table of neighbours first. Then the tree grows in one
pass from left to right, with a cursor at the node that the next token is put under. An operator
goes below the cursor if it binds as tightly, and otherwise above every operator that binds
tighter, up to the nearest open parenthesis or the root. An open parenthesis is a node of its own
until it is closed, when what it holds takes its place.

## Main definitions

* `TokenType.canStart`, `TokenType.canPrecede` — the table of neighbours
* `checkNeighbours` — what the table says of a list of tokens
* `Builder` — the arena, the cursor and the number of open parentheses
* `Builder.step` — puts one token into the tree
* `parse` — the tree of a list of tokens
-/

namespace VersionRules

namespace TokenType

/-- The types of token that a rule can start with. -/
def canStart : TokenType → Bool
  | qualifier | order | lparen => true
  | _ => false

/-- What can follow a type of token: another one, or the end of the rule. -/
def canPrecede : TokenType → Option TokenType → Bool
  | qualifier | rparen => fun
    | none | some logic | some comma | some sortBy | some rparen => true
    | _ => false
  | order => fun next => next.isNone
  | logic | comma | lparen => fun
    | some qualifier | some lparen => true
    | _ => false
  | sortBy => fun next => next == some order

end TokenType

/-- Checks that every token, the last one included, can stand before what follows it. -/
def checkFollowers : List Token → Except RuleError Unit
  | [] => .ok ()
  | t :: rest =>
    if t.type.canPrecede (rest.head?.map Token.type) then checkFollowers rest
    else .error (.atToken (.badNeighbour t rest.head?) t)

/-- Checks the first token of a rule, and then that every token can stand before what follows
it. -/
def checkNeighbours : List Token → Except RuleError Unit
  | [] => .ok ()
  | t :: rest =>
    if t.type.canStart then checkFollowers (t :: rest)
    else .error (.atToken (.badStart t.type) t)

/-- A tree in the making. -/
structure Builder where
  arena : Arena
  /-- the node that the next token is put under -/
  cursor : NodeId
  /-- how many parentheses are open -/
  openParens : Nat
  deriving DecidableEq

namespace Builder

/-- Nothing read, and the cursor at the root. -/
def empty : Builder :=
  ⟨.empty, Arena.root, 0⟩

/-- The highest node from `i` upwards whose operator, like those between, binds tighter than
`priority`; it is `i` itself if the next one does not. At most `steps` are taken. -/
def climbWithin (a : Arena) (priority : Nat) : Nat → NodeId → NodeId
  | 0, i => i
  | steps + 1, i =>
    match a.parent? i with
    | none => i
    | some parent =>
      match a.shape? parent with
      | some (.binary _ p _ _) => if priority < p then climbWithin a priority steps parent else i
      | _ => i

/-- The highest node from `i` upwards that an operator of a priority goes above. -/
def climb (a : Arena) (priority : Nat) (i : NodeId) : NodeId :=
  climbWithin a priority a.nodes.size i

/-- Puts a connective or a comma into the tree and moves the cursor to it. -/
def addOperator (b : Builder) (t : Token) : Except RuleError Builder := do
  let (a, new) ← b.arena.newBinary t
  let priority := t.kind.priority?.getD 0
  match a.shape? b.cursor with
  | some (.root _) | some (.group _ _) =>
    -- The first operator at this level: all that the level holds is its left operand.
    return { b with arena := a.pushDown b.cursor new, cursor := new }
  | some (.binary _ p _ right) =>
    if p ≤ priority then
      -- The new operator binds as tightly, so it takes the right operand from under the cursor.
      match right with
      | some operand =>
        return { b with
          arena := (a.replaceChild b.cursor operand new).set .left new operand, cursor := new }
      | none => return { b with arena := a.set .right b.cursor new, cursor := new }
    else
      -- It binds weaker, so the operators that bind tighter become its left operand.
      let displaced := climb a priority b.cursor
      match a.parent? displaced with
      | some parent =>
        return { b with
          arena := (a.replaceChild parent displaced new).set .left new displaced, cursor := new }
      | none => .error (.atToken .misplacedOperator t)
  | _ => .error (.atToken .misplacedOperator t)

/-- Closes the innermost open parenthesis: what it holds takes its place, and the cursor moves to
the node above it. -/
def closeScope (b : Builder) (t : Token) : Except RuleError Builder :=
  if b.openParens = 0 then
    .error (.atToken .strayParen t)
  else
    match b.arena.enclosingScope? b.cursor with
    | none => .error (.atToken .strayParen t)
    | some scope =>
      match b.arena.parent? scope with
      | none => .error (.atToken .strayParen t)
      | some parent =>
        match (b.arena.children scope).head? with
        | none => .error (.atToken .emptyParens t)
        | some child =>
          .ok ⟨b.arena.replaceChild parent scope child, parent, b.openParens - 1⟩

/-- Puts one token into the tree. -/
def step (b : Builder) (t : Token) : Except RuleError Builder :=
  match t.kind with
  | .qualifier _ _ | .order =>
    let (a, leaf) := b.arena.newLeaf t
    .ok { b with arena := a.attach b.cursor leaf }
  | .comma | .logic _ => b.addOperator t
  | .lparen =>
    let (a, scope) := b.arena.newGroup t
    .ok ⟨a.attach b.cursor scope, scope, b.openParens + 1⟩
  | .rparen => b.closeScope t
  | .sortBy => do
    -- The whole condition is what is ordered, so the operator goes right below the root.
    let (a, sort) ← b.arena.newBinary t
    return { b with arena := a.pushDown (a.top b.cursor) sort, cursor := sort }

end Builder

/-- The tree of a list of tokens; that of no tokens has no expression. -/
def parse (tokens : List Token) : Except RuleError Arena := do
  checkNeighbours tokens
  let b ← tokens.foldlM Builder.step .empty
  if b.openParens = 0 then
    return b.arena
  else
    .error ⟨.unclosedParens b.openParens, .char ((tokens.getLast?.map Token.stop).getD 0)⟩

end VersionRules
