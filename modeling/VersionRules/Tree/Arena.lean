import VersionRules.Rule.Error

/-!
# Nodes of a growing tree

While a rule is read its tree is kept in an arena: nodes are numbered in the order of their
creation and refer to their children and their parent by number, so regrouping means rewriting a
few links. Node `0` is the root, whose only child is the expression. A node that loses its place
stays in the arena without being reached from the root.

Every operation that puts a node into a slot of another writes both links, from the parent to the
child and back. The link of a child that was there before is left as it is, except by
`Arena.replaceChild`, which clears it.

## Main definitions

* `Shape`, `Node`, `Arena` — what a node is, a node with its link upwards, and all nodes
* `Arena.set` — puts a node into a slot of another
* `Arena.attach`, `Arena.replaceChild`, `Arena.pushDown` — the ways of regrouping
* `Arena.top`, `Arena.enclosingScope?` — what is found by going upwards

## Implementation notes

Going upwards takes at most as many steps as there are nodes, because no link leads back to where it
came from.
-/

namespace VersionRules

/-- The binding strength of an operator; a higher one binds tighter. -/
def TokenKind.priority? : TokenKind → Option Nat
  | .comma | .logic .or => some 1
  | .logic .and => some 2
  | .sortBy => some 3
  | .lparen | .rparen => some 4
  | .qualifier _ _ | .order => none

/-- The number of a node. -/
abbrev NodeId : Type :=
  Nat

/-- The places for children in a node. -/
inductive Slot
  | only
  | left
  | right
  deriving DecidableEq

/-- What a node is, with links to its children. -/
inductive Shape
  /-- the top of the tree -/
  | root (child : Option NodeId)
  /-- an open parenthesis around what has been read since -/
  | group (token : Token) (child : Option NodeId)
  /-- an operator between two operands -/
  | binary (token : Token) (priority : Nat) (left right : Option NodeId)
  /-- a term or an order -/
  | leaf (token : Token)
  deriving DecidableEq

namespace Shape

/-- The token of a node; only the root has none. -/
def token? : Shape → Option Token
  | root _ => none
  | group t _ | binary t _ _ _ | leaf t => some t

/-- The children that are present, the left one first. -/
def children : Shape → List NodeId
  | root child | group _ child => child.toList
  | binary _ _ left right => left.toList ++ right.toList
  | leaf _ => []

/-- Whether a node stands for an open parenthesis. -/
def isParenScope : Shape → Bool
  | group t _ => t.kind = .lparen
  | _ => false

/-- A node with a child put into a slot; a slot that it does not have is ignored. -/
def put (slot : Slot) (child : NodeId) : Shape → Shape
  | root c => if slot = .only then root (some child) else root c
  | group t c => if slot = .only then group t (some child) else group t c
  | binary t p l r =>
    match slot with
    | .left => binary t p (some child) r
    | .right => binary t p l (some child)
    | .only => binary t p l r
  | leaf t => leaf t

/-- The slot that a new child goes into: the right one of an operator only if the left one is
taken. -/
def openSlot? : Shape → Option Slot
  | root _ | group _ _ => some .only
  | binary _ _ none _ => some .left
  | binary _ _ (some _) _ => some .right
  | leaf _ => none

/-- The first slot that holds the child. -/
def slotOf? (child : NodeId) : Shape → Option Slot
  | root c | group _ c => if c = some child then some .only else none
  | binary _ _ l r =>
    if l = some child then some .left else if r = some child then some .right else none
  | leaf _ => none

end Shape

/-- A node: what it is, and a link upwards. -/
structure Node where
  shape : Shape
  parent : Option NodeId
  deriving DecidableEq

/-- The nodes of a tree, in the order of their creation. -/
structure Arena where
  nodes : Array Node
  deriving DecidableEq

namespace Arena

/-- The arena of an empty rule. -/
def empty : Arena :=
  ⟨#[⟨.root none, none⟩]⟩

/-- The number of the root. -/
def root : NodeId :=
  0

variable (a : Arena)

/-- The node with a number. -/
def node? (i : NodeId) : Option Node :=
  a.nodes[i]?

/-- What the node with a number is. -/
def shape? (i : NodeId) : Option Shape :=
  (a.node? i).map Node.shape

/-- The parent that a node links to. -/
def parent? (i : NodeId) : Option NodeId :=
  (a.node? i).bind Node.parent

/-- The token of a node. -/
def token? (i : NodeId) : Option Token :=
  (a.shape? i).bind Shape.token?

/-- The children of a node, the left one first. -/
def children (i : NodeId) : List NodeId :=
  match a.shape? i with
  | some shape => shape.children
  | none => []

/-- The child of the root. -/
def expression? : Option NodeId :=
  (a.children root).head?

/-- Whether a node stands for an open parenthesis. -/
def isParenScope (i : NodeId) : Bool :=
  match a.shape? i with
  | some shape => shape.isParenScope
  | none => false

/-! ### New nodes -/

/-- Adds a node without links and gives its number. -/
def push (shape : Shape) : Arena × NodeId :=
  (⟨a.nodes.push ⟨shape, none⟩⟩, a.nodes.size)

/-- Adds a term or an order. -/
def newLeaf (t : Token) : Arena × NodeId :=
  a.push (.leaf t)

/-- Adds an open parenthesis. -/
def newGroup (t : Token) : Arena × NodeId :=
  a.push (.group t none)

/-- Adds an operator; a token without priority is none. -/
def newBinary (t : Token) : Except RuleError (Arena × NodeId) :=
  match t.kind.priority? with
  | some priority => .ok (a.push (.binary t priority none none))
  | none => .error (.atToken .noPriority t)

/-! ### Links -/

/-- Changes the node with a number. -/
def update (i : NodeId) (f : Node → Node) : Arena :=
  ⟨a.nodes.modify i f⟩

/-- Lets a node link to a parent, or to none. -/
def setParent (i : NodeId) (parent : Option NodeId) : Arena :=
  a.update i fun n => { n with parent }

/-- Puts a node into a slot of another and links it upwards. -/
def set (slot : Slot) (parent child : NodeId) : Arena :=
  (a.update parent fun n => { n with shape := n.shape.put slot child }).setParent child
    (some parent)

/-- Puts a node into the open slot of another. -/
def attach (parent child : NodeId) : Arena :=
  match (a.shape? parent).bind Shape.openSlot? with
  | some slot => a.set slot parent child
  | none => a

/-- Puts a node into the slot that `old` has in `parent`, and clears the link from `old`
upwards. -/
def replaceChild (parent old new : NodeId) : Arena :=
  match (a.shape? parent).bind (Shape.slotOf? old) with
  | some slot =>
    let b := a.set slot parent new
    -- If `old` was put under another node meanwhile, its link leads there and stays.
    if b.parent? old = some parent then b.setParent old none else b
  | none => a

/-- Puts an operator between a node and its child, which becomes the left operand. -/
def pushDown (unary binary : NodeId) : Arena :=
  let b := a.set .only unary binary
  match (a.children unary).head? with
  | some previous => b.set .left binary previous
  | none => b

/-! ### Walks -/

/-- The node reached by going upwards at most `steps` times. -/
def topWithin : Nat → NodeId → NodeId
  | 0, i => i
  | steps + 1, i =>
    match a.parent? i with
    | some parent => topWithin steps parent
    | none => i

/-- The topmost node above a node. -/
def top (i : NodeId) : NodeId :=
  a.topWithin a.nodes.size i

/-- The nearest open parenthesis among the first `count` nodes from a node upwards. -/
def enclosingScopeWithin? : Nat → NodeId → Option NodeId
  | 0, _ => none
  | count + 1, i =>
    if a.isParenScope i then some i
    else
      match a.parent? i with
      | some parent => enclosingScopeWithin? count parent
      | none => none

/-- The nearest open parenthesis at or above a node. -/
def enclosingScope? (i : NodeId) : Option NodeId :=
  a.enclosingScopeWithin? a.nodes.size i

end Arena

end VersionRules
