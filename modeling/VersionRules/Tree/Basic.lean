import VersionRules.Tree.Arena

/-!
# Trees

What is reached from a node of an arena is a tree. Meaning and printed form depend on it alone,
and not on the numbers or the upward links of its nodes.

## Main definitions

* `Tree` — a tree, where an operand may be missing
* `Arena.treeAt`, `Arena.expression` — the tree below a node, and the one below the root
* `Tree.text` — a tree as it is printed, for instance `(or (and BUILD:1 TYPE:rpm) BUILD:2)`
-/

namespace VersionRules

/-- What is reached from a node. -/
inductive Tree
  /-- the place of a child that is not there -/
  | missing
  | root (child : Tree)
  | group (token : Token) (child : Tree)
  | binary (token : Token) (left right : Tree)
  | leaf (token : Token)
  deriving DecidableEq

namespace Tree

/-- Whether nothing is there. -/
def isMissing : Tree → Bool
  | missing => true
  | _ => false

/-- A child as it is printed behind its parent's token: nothing, or a space and the child. -/
def operandText (child : Tree) (text : String) : String :=
  if child.isMissing then "" else " " ++ text

/-- A tree as it is printed: operators before their operands, both in parentheses. -/
def text : Tree → String
  | missing => ""
  | root child => child.text
  | group _ child => "(group" ++ operandText child child.text ++ ")"
  | binary t left right =>
    "(" ++ t.text ++ operandText left left.text ++ operandText right right.text ++ ")"
  | leaf t => t.text

end Tree

namespace Arena

variable (a : Arena)

/-- What is reached from a node in at most `depth` levels. -/
def treeWithin : Nat → NodeId → Tree
  | 0, _ => .missing
  | depth + 1, i =>
    let below : Option NodeId → Tree
      | some child => treeWithin depth child
      | none => .missing
    match a.shape? i with
    | some (.root child) => .root (below child)
    | some (.group t child) => .group t (below child)
    | some (.binary t _ left right) => .binary t (below left) (below right)
    | some (.leaf t) => .leaf t
    | none => .missing

/-- What is reached from a node. -/
def treeAt (i : NodeId) : Tree :=
  a.treeWithin a.nodes.size i

/-- What is reached from the root, the root included. -/
def tree : Tree :=
  a.treeAt root

/-- The tree below the root. -/
def expression : Tree :=
  match a.expression? with
  | some i => a.treeAt i
  | none => .missing

/-- An arena is printed as what is reached from its root. -/
def text : String :=
  a.tree.text

end Arena

end VersionRules
