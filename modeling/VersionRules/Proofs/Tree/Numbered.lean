import Mathlib.Data.List.Nodup
import VersionRules.Proofs.Tree.Links
import VersionRules.Tree.Basic

/-!
# Trees in an arena

An arena holds a tree below a node if every node of the tree is found under its number, with links
to its children and back to its parent. A tree that is held is untouched by changes to other nodes,
and what is read off the arena is the tree itself.

## Main definitions

* `NumberedTree` — a tree together with the numbers of its nodes
* `NumberedTree.StoredIn` — the arena holds the tree below a parent

## Main results

* `NumberedTree.StoredIn.congr` — only the nodes of the tree matter
* `NumberedTree.StoredIn.move` — a tree is moved by changing one upward link
* `Arena.treeAt_eq_of_storedIn` — what is reached from its topmost node is the tree
-/

namespace VersionRules

/-- The binding strength of a token, zero for one that joins nothing. -/
def Token.priority (t : Token) : Nat :=
  t.kind.priority?.getD 0

/-- A tree together with the numbers of its nodes. -/
inductive NumberedTree
  | leaf (number : NodeId) (token : Token)
  | group (number : NodeId) (token : Token) (child : NumberedTree)
  | binary (number : NodeId) (token : Token) (left right : NumberedTree)

namespace NumberedTree

/-- The number of the topmost node. -/
def number : NumberedTree → NodeId
  | leaf i _ | group i _ _ | binary i _ _ _ => i

@[simp]
theorem number_leaf (i : NodeId) (t : Token) : (leaf i t).number = i :=
  rfl

@[simp]
theorem number_group (i : NodeId) (t : Token) (child : NumberedTree) :
    (group i t child).number = i :=
  rfl

@[simp]
theorem number_binary (i : NodeId) (t : Token) (left right : NumberedTree) :
    (binary i t left right).number = i :=
  rfl

/-- The numbers of all nodes, each before those below it. -/
def numbers : NumberedTree → List NodeId
  | leaf i _ => [i]
  | group i _ child => i :: child.numbers
  | binary i _ left right => i :: (left.numbers ++ right.numbers)

/-- The tree without its numbers. -/
def tree : NumberedTree → Tree
  | leaf _ t => .leaf t
  | group _ t child => .group t child.tree
  | binary _ t left right => .binary t left.tree right.tree

/-- How many open parentheses the tree has. -/
def groupCount : NumberedTree → Nat
  | leaf _ _ => 0
  | group _ _ child => child.groupCount + 1
  | binary _ _ left right => left.groupCount + right.groupCount

/-- The arena holds the tree, and its topmost node links to `parent`. -/
def StoredIn (a : Arena) (parent : NodeId) : NumberedTree → Prop
  | leaf i t => a.node? i = some ⟨.leaf t, some parent⟩
  | group i t child =>
    a.node? i = some ⟨.group t (some child.number), some parent⟩ ∧ child.StoredIn a i
  | binary i t left right =>
    a.node? i = some ⟨.binary t t.priority (some left.number) (some right.number), some parent⟩ ∧
      left.StoredIn a i ∧ right.StoredIn a i

variable {a b : Arena} {x : NumberedTree} {i p q : NodeId}

theorem number_mem_numbers (x : NumberedTree) : x.number ∈ x.numbers := by
  cases x <;> simp [number, numbers]

/-- The topmost node of a stored tree links to the parent. -/
theorem StoredIn.parent? (h : x.StoredIn a p) : a.parent? x.number = some p := by
  cases x with
  | leaf i t => exact Arena.parent?_of_node? h
  | group i t child => exact Arena.parent?_of_node? h.1
  | binary i t left right => exact Arena.parent?_of_node? h.1

/-- Every node of a stored tree is one of the arena. -/
theorem StoredIn.lt_size (h : x.StoredIn a p) : ∀ j ∈ x.numbers, j < a.nodes.size := by
  induction x generalizing p with
  | leaf i t =>
    intro j hj
    rw [List.mem_singleton.1 hj]
    exact Arena.lt_size_of_node? h
  | group i t child ih =>
    intro j hj
    rcases List.mem_cons.1 hj with rfl | hj
    · exact Arena.lt_size_of_node? h.1
    · exact ih h.2 j hj
  | binary i t left right ihl ihr =>
    intro j hj
    rcases List.mem_cons.1 hj with rfl | hj
    · exact Arena.lt_size_of_node? h.1
    · rcases List.mem_append.1 hj with hj | hj
      · exact ihl h.2.1 j hj
      · exact ihr h.2.2 j hj

/-- Whether a tree is stored depends on its own nodes only. -/
theorem StoredIn.congr (h : x.StoredIn a p) (hb : ∀ j ∈ x.numbers, b.node? j = a.node? j) :
    x.StoredIn b p := by
  induction x generalizing p with
  | leaf i t => exact (hb i (by simp [numbers])).trans h
  | group i t child ih =>
    refine ⟨(hb i (by simp [numbers])).trans h.1, ih h.2 ?_⟩
    intro j hj
    exact hb j (by simp [numbers, hj])
  | binary i t left right ihl ihr =>
    refine ⟨(hb i (by simp [numbers])).trans h.1, ihl h.2.1 ?_, ihr h.2.2 ?_⟩
    · intro j hj
      exact hb j (by simp [numbers, hj])
    · intro j hj
      exact hb j (by simp [numbers, hj])

/-- A stored tree is moved below another parent by changing the link of its topmost node. -/
theorem StoredIn.move (h : x.StoredIn a p) (hnodup : x.numbers.Nodup)
    (htop : b.node? x.number = (a.node? x.number).map fun n => { n with parent := some q })
    (hb : ∀ j ∈ x.numbers, j ≠ x.number → b.node? j = a.node? j) : x.StoredIn b q := by
  -- No induction: the subtrees do not contain the topmost node, so they are left alone.
  cases x with
  | leaf i t =>
    refine htop.trans ?_
    rw [number_leaf, show a.node? i = _ from h, Option.map_some]
  | group i t child =>
    simp only [numbers, List.nodup_cons] at hnodup
    refine ⟨htop.trans ?_, h.2.congr ?_⟩
    · rw [number_group, h.1, Option.map_some]
    · intro j hj
      apply hb j (List.mem_cons_of_mem _ hj)
      rintro rfl
      exact hnodup.1 hj
  | binary i t left right =>
    simp only [numbers, List.nodup_cons, List.mem_append, not_or] at hnodup
    refine ⟨htop.trans ?_, h.2.1.congr ?_, h.2.2.congr ?_⟩
    · rw [number_binary, h.1, Option.map_some]
    · intro j hj
      apply hb j (List.mem_cons_of_mem _ (List.mem_append_left _ hj))
      rintro rfl
      exact hnodup.1.1 hj
    · intro j hj
      apply hb j (List.mem_cons_of_mem _ (List.mem_append_right _ hj))
      rintro rfl
      exact hnodup.1.2 hj

/-- How many levels a tree has is at most how many nodes it has, so that the bound on reading a
tree off an arena never cuts it short. -/
theorem StoredIn.treeWithin_eq (h : x.StoredIn a p) {depth : Nat}
    (hdepth : x.numbers.length ≤ depth) : a.treeWithin depth x.number = x.tree := by
  -- Every tree has a node, so the bound is never zero, and one node less is left for the subtrees.
  induction x generalizing p depth with
  | leaf i t =>
    cases depth with
    | zero => simp [numbers] at hdepth
    | succ d =>
      simp only [Arena.treeWithin, Arena.shape?, number_leaf, show a.node? i = _ from h,
        Option.map_some, tree]
  | group i t child ih =>
    cases depth with
    | zero => simp [numbers] at hdepth
    | succ d =>
      have hd : child.numbers.length ≤ d := by
        simp only [numbers, List.length_cons] at hdepth
        omega
      simp only [Arena.treeWithin, Arena.shape?, number_group, h.1, Option.map_some, tree,
        ih h.2 hd]
  | binary i t left right ihl ihr =>
    cases depth with
    | zero => simp [numbers] at hdepth
    | succ d =>
      simp only [numbers, List.length_cons, List.length_append] at hdepth
      have hl : left.numbers.length ≤ d := by omega
      have hr : right.numbers.length ≤ d := by omega
      simp only [Arena.treeWithin, Arena.shape?, number_binary, h.1, Option.map_some, tree,
        ihl h.2.1 hl, ihr h.2.2 hr]

end NumberedTree

/-- Numbers of different nodes are at most as many as there are nodes. -/
theorem Arena.length_le_size {a : Arena} {js : List NodeId} (hnodup : js.Nodup)
    (hlt : ∀ j ∈ js, j < a.nodes.size) : js.length ≤ a.nodes.size := by
  have hsub : js ⊆ List.range a.nodes.size := by
    intro j hj
    exact List.mem_range.2 (hlt j hj)
  simpa using hnodup.length_le_of_subset hsub

/-- What is reached from the topmost node of a stored tree is the tree. -/
theorem Arena.treeAt_eq_of_storedIn {a : Arena} {x : NumberedTree} {p : NodeId}
    (h : x.StoredIn a p) (hnodup : x.numbers.Nodup) : a.treeAt x.number = x.tree :=
  h.treeWithin_eq (length_le_size hnodup h.lt_size)

end VersionRules
