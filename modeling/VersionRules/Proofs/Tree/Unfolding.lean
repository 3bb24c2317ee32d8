import Mathlib.Logic.Relation
import VersionRules.Proofs.Tree.Numbered

/-!
# Trees of arbitrary arenas

An arena is put together by creating nodes and by linking them, in any order. The parser does so
with care, but nothing keeps others from leaving operands out, from putting one node into several
slots, or from linking a node below itself. Links never lead out of the arena, though, and if
following them downwards leads back nowhere, what is reached from a node is a tree: the bound on the
depth never cuts it short.

## Main definitions

* `Arena.Step`, `Arena.Built` — one operation on an arena, and the arenas that operations lead to
* `Arena.Acyclic` — following links downwards leads back nowhere
* `Arena.Unfolds` — what is reached from a node, without any bound

## Main results

* `Arena.Linked.step`, `Arena.Built.linked` — links lead to nodes of the arena
* `Arena.acyclic_of_rank` — links that lower a number leave no cycle
* `Arena.unfolds_treeAt` — what is reached within the bound is all that is reached
-/

namespace VersionRules

namespace Arena

variable {a b : Arena} {i j parent child : NodeId} {slot : Slot} {shape : Shape} {t : Token}

/-! ### Operations -/

/-- One operation on an arena: a new node, or links between nodes that are there. -/
inductive Step (a : Arena) : Arena → Prop
  | newLeaf (t : Token) : Step a (a.newLeaf t).1
  | newGroup (t : Token) : Step a (a.newGroup t).1
  | newBinary (t : Token) {b : Arena} {i : NodeId} (h : a.newBinary t = .ok (b, i)) : Step a b
  | set (slot : Slot) (parent child : NodeId) (hparent : parent < a.nodes.size)
      (hchild : child < a.nodes.size) : Step a (a.set slot parent child)
  | attach (parent child : NodeId) (hparent : parent < a.nodes.size)
      (hchild : child < a.nodes.size) : Step a (a.attach parent child)
  | replaceChild (parent old new : NodeId) (hparent : parent < a.nodes.size)
      (hnew : new < a.nodes.size) : Step a (a.replaceChild parent old new)
  | pushDown (unary binary : NodeId) (hunary : unary < a.nodes.size)
      (hbinary : binary < a.nodes.size) : Step a (a.pushDown unary binary)

/-- The arenas that operations lead to. -/
def Built (a : Arena) : Prop :=
  Relation.ReflTransGen Step .empty a

/-- A node has another one as a child. -/
def IsChild (a : Arena) (i j : NodeId) : Prop :=
  j ∈ a.children i

/-- Following links downwards leads back nowhere. -/
def Acyclic (a : Arena) : Prop :=
  ∀ i, ¬ Relation.TransGen a.IsChild i i

/-! ### What nodes are -/

theorem exists_shape? (hi : i < a.nodes.size) : ∃ shape, a.shape? i = some shape := by
  have hnode : a.node? i = some a.nodes[i] := Array.getElem?_eq_getElem hi
  exact ⟨a.nodes[i].shape, by rw [shape?, hnode, Option.map_some]⟩

theorem lt_size_of_shape? (h : a.shape? i = some shape) : i < a.nodes.size := by
  obtain ⟨n, hn, -⟩ := Option.map_eq_some_iff.1 h
  exact lt_size_of_node? hn

theorem mem_children_iff :
    j ∈ a.children i ↔ ∃ shape, a.shape? i = some shape ∧ j ∈ shape.children := by
  rw [children]
  cases a.shape? i with
  | none => simp
  | some shape => simp

theorem shape?_push (a : Arena) (shape : Shape) (j : NodeId) :
    (a.push shape).1.shape? j = if j = a.nodes.size then some shape else a.shape? j := by
  rw [shape?, node?_push]
  split <;> rfl

/-- Links upwards have no part in what nodes are. -/
theorem shape?_setParent (a : Arena) (i : NodeId) (parent : Option NodeId) (j : NodeId) :
    (a.setParent i parent).shape? j = a.shape? j := by
  rw [shape?, setParent, node?_update, shape?]
  split
  · rw [Option.map_map]
    rfl
  · rfl

theorem shape?_set (a : Arena) (slot : Slot) (parent child j : NodeId) :
    (a.set slot parent child).shape? j =
      if j = parent then (a.shape? j).map (Shape.put slot child) else a.shape? j := by
  rw [set, shape?_setParent, shape?, node?_update, shape?]
  split
  · rw [Option.map_map, Option.map_map]
    rfl
  · rfl

theorem mem_children_put (h : j ∈ (shape.put slot child).children) :
    j = child ∨ j ∈ shape.children := by
  cases shape <;> cases slot <;> simp_all [Shape.put, Shape.children]
  case binary.left => exact h.imp_right .inr
  case binary.right => exact h.symm.imp_right .inl

/-- A node that is linked to another has no children but this one and those it had before. -/
theorem mem_children_set (h : j ∈ (a.set slot parent child).children i) :
    j = child ∨ j ∈ a.children i := by
  obtain ⟨shape, hshape, hj⟩ := mem_children_iff.1 h
  rw [shape?_set] at hshape
  split at hshape
  · obtain ⟨before, hbefore, rfl⟩ := Option.map_eq_some_iff.1 hshape
    refine (mem_children_put hj).imp_right ?_
    intro hj
    exact mem_children_iff.2 ⟨before, hbefore, hj⟩
  · exact .inr (mem_children_iff.2 ⟨shape, hshape, hj⟩)

/-! ### Cycles -/

/-- Links that lower a number leave no cycle. -/
theorem acyclic_of_rank (rank : NodeId → Nat)
    (h : ∀ i < a.nodes.size, ∀ j ∈ a.children i, rank j < rank i) : a.Acyclic := by
  have hchild : ∀ i j, a.IsChild i j → rank j < rank i := by
    intro i j hij
    refine h i ?_ j hij
    obtain ⟨shape, hshape, -⟩ := mem_children_iff.1 hij
    exact lt_size_of_shape? hshape
  have hpath : ∀ i j, Relation.TransGen a.IsChild i j → rank j < rank i := by
    intro i j hij
    induction hij with
    | single hij => exact hchild i _ hij
    | tail _ hjk ih => exact Nat.lt_trans (hchild _ _ hjk) ih
  intro i hi
  exact Nat.lt_irrefl _ (hpath i i hi)

/-! ### Links lead to nodes -/

/-- Every child is a node of the arena. -/
def Linked (a : Arena) : Prop :=
  ∀ i, ∀ j ∈ a.children i, j < a.nodes.size

namespace Linked

theorem empty : Linked .empty := by
  intro i j hj
  obtain ⟨shape, hshape, hj⟩ := mem_children_iff.1 hj
  cases i with
  | zero =>
    obtain rfl := Option.some.inj hshape
    cases hj
  | succ i => cases hshape

theorem push (h : a.Linked) (hshape : shape.children = []) : (a.push shape).1.Linked := by
  intro i j hj
  obtain ⟨shape', hshape', hj⟩ := mem_children_iff.1 hj
  rw [shape?_push] at hshape'
  split at hshape'
  · obtain rfl := Option.some.inj hshape'
    rw [hshape] at hj
    cases hj
  · rw [size_push]
    exact Nat.lt_succ_of_lt (h i j (mem_children_iff.2 ⟨shape', hshape', hj⟩))

theorem set (h : a.Linked) (slot : Slot) (parent : NodeId) (hchild : child < a.nodes.size) :
    (a.set slot parent child).Linked := by
  intro i j hj
  rw [size_set]
  rcases mem_children_set hj with rfl | hj
  · exact hchild
  · exact h i j hj

theorem setParent (h : a.Linked) (i : NodeId) (parent : Option NodeId) :
    (a.setParent i parent).Linked := by
  intro k j hj
  obtain ⟨shape, hshape, hj⟩ := mem_children_iff.1 hj
  rw [shape?_setParent] at hshape
  rw [Arena.setParent, size_update]
  exact h k j (mem_children_iff.2 ⟨shape, hshape, hj⟩)

/-- No operation leaves a link that leads out of the arena. -/
theorem step (h : a.Linked) (hstep : a.Step b) : b.Linked := by
  cases hstep with
  | newLeaf t => exact h.push rfl
  | newGroup t => exact h.push rfl
  | newBinary t hnew =>
    unfold Arena.newBinary at hnew
    split at hnew
    · obtain ⟨rfl, -⟩ := Prod.mk.inj (Except.ok.inj hnew)
      exact h.push rfl
    · cases hnew
  | set slot parent child _ hchild => exact h.set slot parent hchild
  | attach parent child _ hchild =>
    unfold attach
    split
    · exact h.set _ _ hchild
    · exact h
  | replaceChild parent old new _ hnew =>
    unfold replaceChild
    split
    · dsimp only
      split
      · exact (h.set _ _ hnew).setParent _ _
      · exact h.set _ _ hnew
    · exact h
  | pushDown unary binary _ hbinary =>
    unfold pushDown
    dsimp only
    split
    · next previous hprevious =>
      refine (h.set _ _ hbinary).set _ _ ?_
      rw [size_set]
      exact h _ previous (List.mem_of_head? hprevious)
    · exact h.set _ _ hbinary

end Linked

theorem Built.linked (h : a.Built) : a.Linked := by
  induction h with
  | refl => exact .empty
  | tail _ hstep ih => exact ih.step hstep

/-! ### What is reached from a node -/

/-- What is reached from a place for a child, without any bound. -/
inductive Unfolds (a : Arena) : Option NodeId → Tree → Prop
  | missing : Unfolds a none .missing
  | root {i : NodeId} {child : Option NodeId} {x : Tree} (hi : a.shape? i = some (.root child))
      (hx : Unfolds a child x) : Unfolds a (some i) (.root x)
  | group {i : NodeId} {t : Token} {child : Option NodeId} {x : Tree}
      (hi : a.shape? i = some (.group t child)) (hx : Unfolds a child x) :
      Unfolds a (some i) (.group t x)
  | binary {i : NodeId} {t : Token} {priority : Nat} {left right : Option NodeId} {x y : Tree}
      (hi : a.shape? i = some (.binary t priority left right)) (hx : Unfolds a left x)
      (hy : Unfolds a right y) : Unfolds a (some i) (.binary t x y)
  | leaf {i : NodeId} {t : Token} (hi : a.shape? i = some (.leaf t)) :
      Unfolds a (some i) (.leaf t)

/-- One tree is reached from a place. -/
theorem Unfolds.unique {n : Option NodeId} {x y : Tree} (hx : a.Unfolds n x) (hy : a.Unfolds n y) :
    x = y := by
  induction hx generalizing y with
  | missing =>
    cases hy
    rfl
  | root hi _ ih =>
    cases hy with
    | root hi' hy =>
      cases hi.symm.trans hi'
      rw [ih hy]
    | group hi' | binary hi' | leaf hi' => cases hi.symm.trans hi'
  | group hi _ ih =>
    cases hy with
    | group hi' hy =>
      cases hi.symm.trans hi'
      rw [ih hy]
    | root hi' | binary hi' | leaf hi' => cases hi.symm.trans hi'
  | binary hi _ _ ihl ihr =>
    cases hy with
    | binary hi' hl hr =>
      cases hi.symm.trans hi'
      rw [ihl hl, ihr hr]
    | root hi' | group hi' | leaf hi' => cases hi.symm.trans hi'
  | leaf hi =>
    cases hy with
    | leaf hi' =>
      cases hi.symm.trans hi'
      rfl
    | root hi' | group hi' | binary hi' => cases hi.symm.trans hi'

/-! ### One level of a tree -/

theorem treeWithin_root {child : Option NodeId} (hi : a.shape? i = some (.root child))
    (depth : Nat) :
    a.treeWithin (depth + 1) i = .root (child.elim .missing (a.treeWithin depth)) := by
  rw [treeWithin, hi]
  cases child <;> rfl

theorem treeWithin_group {child : Option NodeId} (hi : a.shape? i = some (.group t child))
    (depth : Nat) :
    a.treeWithin (depth + 1) i = .group t (child.elim .missing (a.treeWithin depth)) := by
  rw [treeWithin, hi]
  cases child <;> rfl

theorem treeWithin_binary {priority : Nat} {left right : Option NodeId}
    (hi : a.shape? i = some (.binary t priority left right)) (depth : Nat) :
    a.treeWithin (depth + 1) i =
      .binary t (left.elim .missing (a.treeWithin depth))
        (right.elim .missing (a.treeWithin depth)) := by
  rw [treeWithin, hi]
  cases left <;> cases right <;> rfl

theorem treeWithin_leaf (hi : a.shape? i = some (.leaf t)) (depth : Nat) :
    a.treeWithin (depth + 1) i = .leaf t := by
  rw [treeWithin, hi]

/-! ### All levels -/

/-- Different nodes of the arena from which a node is reached. -/
structure Lineage (a : Arena) (above : List NodeId) (i : NodeId) : Prop where
  nodup : above.Nodup
  lt_size : ∀ j ∈ above, j < a.nodes.size
  reaches : ∀ j ∈ above, Relation.TransGen a.IsChild j i

namespace Lineage

variable {above : List NodeId}

theorem nodup_cons (h : a.Lineage above i) (hacyclic : a.Acyclic) : (i :: above).Nodup :=
  List.nodup_cons.2 ⟨fun hi => hacyclic i (h.reaches i hi), h.nodup⟩

/-- A node below another has one more node above it. -/
theorem cons (h : a.Lineage above i) (hacyclic : a.Acyclic) (hi : i < a.nodes.size)
    (hij : a.IsChild i j) : a.Lineage (i :: above) j where
  nodup := h.nodup_cons hacyclic
  lt_size := List.forall_mem_cons.2 ⟨hi, h.lt_size⟩
  reaches := List.forall_mem_cons.2 ⟨.single hij, fun k hk => (h.reaches k hk).tail hij⟩

/-- There are fewer nodes above a node than there are nodes. -/
theorem length_lt (h : a.Lineage above i) (hacyclic : a.Acyclic) (hi : i < a.nodes.size) :
    above.length < a.nodes.size :=
  length_le_size (h.nodup_cons hacyclic) (List.forall_mem_cons.2 ⟨hi, h.lt_size⟩)

end Lineage

/-- As many levels are left as there are nodes that are not above, so that there is one for every
node. -/
theorem unfolds_treeWithin (hlinked : a.Linked) (hacyclic : a.Acyclic) {above : List NodeId}
    (habove : a.Lineage above i) (hi : i < a.nodes.size) {depth : Nat}
    (hdepth : a.nodes.size ≤ above.length + depth) :
    a.Unfolds (some i) (a.treeWithin depth i) := by
  induction depth generalizing i above with
  -- Without a level left all nodes would be above `i`, and `i` with them.
  | zero => exact absurd (habove.length_lt hacyclic hi) (Nat.not_lt.2 hdepth)
  | succ depth ih =>
    have hbelow : ∀ child : Option NodeId, (∀ j ∈ child, a.IsChild i j) →
        a.Unfolds child (child.elim .missing (a.treeWithin depth)) := by
      intro child hchild
      cases child with
      | none => exact .missing
      | some j =>
        have hij := hchild j rfl
        refine ih (habove.cons hacyclic hi hij) (hlinked i j hij) ?_
        rw [List.length_cons]
        omega
    obtain ⟨shape, hshape⟩ := exists_shape? hi
    have hchildren : a.children i = shape.children := by rw [children, hshape]
    simp only [IsChild, hchildren] at hbelow
    cases shape with
    | root child =>
      rw [treeWithin_root hshape]
      exact .root hshape (hbelow child fun j hj => Option.mem_toList.2 hj)
    | group t child =>
      rw [treeWithin_group hshape]
      exact .group hshape (hbelow child fun j hj => Option.mem_toList.2 hj)
    | binary t priority left right =>
      rw [treeWithin_binary hshape]
      refine .binary hshape (hbelow left ?_) (hbelow right ?_)
      · intro j hj
        exact List.mem_append_left _ (Option.mem_toList.2 hj)
      · intro j hj
        exact List.mem_append_right _ (Option.mem_toList.2 hj)
    | leaf t =>
      rw [treeWithin_leaf hshape]
      exact .leaf hshape

/-- What is reached within the bound is all that is reached. -/
theorem unfolds_treeAt (hlinked : a.Linked) (hacyclic : a.Acyclic) (hi : i < a.nodes.size) :
    a.Unfolds (some i) (a.treeAt i) :=
  unfolds_treeWithin hlinked hacyclic ⟨List.nodup_nil, nofun, nofun⟩ hi (Nat.le_add_left _ _)

theorem Unfolds.treeAt_eq {x : Tree} (h : a.Unfolds (some i) x) (hlinked : a.Linked)
    (hacyclic : a.Acyclic) : a.treeAt i = x := by
  have hi : i < a.nodes.size := by
    cases h with
    | root hi | group hi | binary hi | leaf hi => exact lt_size_of_shape? hi
  exact (unfolds_treeAt hlinked hacyclic hi).unique h

theorem unfolds_expression (hlinked : a.Linked) (hacyclic : a.Acyclic) :
    a.Unfolds a.expression? a.expression := by
  rw [expression]
  cases hi : a.expression? with
  | none => exact .missing
  | some i => exact unfolds_treeAt hlinked hacyclic (hlinked root i (List.mem_of_head? hi))

end Arena

end VersionRules
