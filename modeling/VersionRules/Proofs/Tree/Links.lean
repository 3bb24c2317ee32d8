import Mathlib.Tactic.Common
import VersionRules.Tree.Arena

/-!
# What regrouping does to each node

Every operation on an arena is described by the nodes that are found afterwards. Creating a node
leaves all others alone, and putting a node into a slot of another changes the slot of the one and
the upward link of the other.

## Main definitions

* `Arena.insertedNode?` — the nodes once an operator stands between a node and its child

## Main results

* `Arena.node?_push`, `Arena.node?_set` — the nodes after creating one, and after linking two
* `Arena.node?_replaceChild` — the nodes after one has lost its place to another
* `Arena.node?_replaceChild_set`, `Arena.node?_pushDown` — both ways of putting an operator
  between a node and its child come to the same, by `Arena.node?_set_left`
* `Arena.parent?_push`, `Arena.parent?_set` and their like — which links upwards change
* `Arena.size_push`, `Arena.size_set` — how many nodes there are
-/

namespace VersionRules

namespace Arena

variable (a : Arena) {i j up old new : NodeId} {n : Node} {parent : Option NodeId} {slot : Slot}
  {shape : Shape}

variable {a} in
theorem lt_size_of_node? (h : a.node? i = some n) : i < a.nodes.size := by
  by_contra hlt
  rw [node?, Array.getElem?_eq_none (Nat.not_lt.mp hlt)] at h
  exact absurd h (by simp)

variable {a} in
theorem shape?_of_node? (h : a.node? i = some ⟨shape, parent⟩) : a.shape? i = some shape := by
  rw [shape?, h, Option.map_some]

variable {a} in
theorem children_of_node? (h : a.node? i = some ⟨shape, parent⟩) :
    a.children i = shape.children := by
  rw [children, shape?_of_node? h]

variable {a} in
theorem parent?_of_node? (h : a.node? i = some ⟨shape, parent⟩) : a.parent? i = parent := by
  rw [parent?, h, Option.bind_some]

theorem node?_push (shape : Shape) (j : NodeId) :
    (a.push shape).1.node? j = if j = a.nodes.size then some ⟨shape, none⟩ else a.node? j := by
  simp only [push, node?, Array.getElem?_push]

theorem node?_update (f : Node → Node) (i j : NodeId) :
    (a.update i f).node? j = if j = i then (a.node? j).map f else a.node? j := by
  simp only [update, node?, Array.getElem?_modify]
  by_cases hj : j = i
  · simp [hj]
  · rw [if_neg hj, if_neg (Ne.symm hj)]

/-- Putting a node into a slot of another changes the slot of the one and the upward link of the
other. -/
theorem node?_set (slot : Slot) (hne : new ≠ up) (j : NodeId) :
    (a.set slot up new).node? j =
      if j = up then (a.node? j).map fun n => { n with shape := n.shape.put slot new }
      else if j = new then (a.node? j).map fun n => { n with parent := some up }
      else a.node? j := by
  simp only [set, setParent, node?_update]
  by_cases hup : j = up
  · subst hup
    rw [if_neg (Ne.symm hne), if_pos rfl, if_pos rfl]
  · by_cases hnew : j = new
    · rw [if_pos hnew, if_neg hup, if_neg hup, if_pos hnew]
    · rw [if_neg hnew, if_neg hup, if_neg hup, if_neg hnew]

/-- The nodes after `new` has taken the place of `old` below `up`, and `old` has none. -/
theorem node?_replaceChild (hup : a.node? up = some ⟨shape, parent⟩)
    (hslot : shape.slotOf? old = some slot) (hparent : a.parent? old = some up)
    (hne : new ≠ up) (hold : old ≠ up) (hnew : old ≠ new) (j : NodeId) :
    (a.replaceChild up old new).node? j =
      if j = up then some ⟨shape.put slot new, parent⟩
      else if j = new then (a.node? j).map fun n => { n with parent := some up }
      else if j = old then (a.node? j).map fun n => { n with parent := none }
      else a.node? j := by
  have hshape : (a.shape? up).bind (Shape.slotOf? old) = some slot := by
    rw [shape?_of_node? hup, Option.bind_some, hslot]
  -- The upward link of the old child is cleared only if it still leads to `up`, which it does.
  have hkept : (a.set slot up new).parent? old = some up := by
    rw [parent?, node?_set a slot hne, if_neg hold, if_neg hnew]
    exact hparent
  simp only [replaceChild, hshape, hkept, if_true, setParent, node?_update, node?_set a slot hne]
  by_cases hj : j = old
  · subst hj
    rw [if_pos rfl, if_neg hold, if_neg hnew, if_neg hold, if_neg hnew, if_pos rfl]
  · rw [if_neg hj, if_neg hj]
    by_cases hjup : j = up
    · subst hjup
      rw [if_pos rfl, if_pos rfl, hup]
      rfl
    · rw [if_neg hjup, if_neg hjup]

/-! ### An operator between a node and its child -/

/-- The node with number `j` once the operator `new` stands between `up` and its child `old`. -/
def insertedNode? (slot : Slot) (up old new j : NodeId) : Option Node :=
  if j = up then (a.node? j).map fun n => { n with shape := n.shape.put slot new }
  else if j = new then (a.node? j).map fun n => ⟨n.shape.put .left old, some up⟩
  else if j = old then (a.node? j).map fun n => { n with parent := some new }
  else a.node? j

/-- Once `new` stands below `up`, linking `old` below `new` completes the insertion. Whatever upward
link `old` had in between does not matter. -/
theorem node?_set_left {b : Arena} (hne : new ≠ up) (hold : old ≠ up) (hnew : old ≠ new)
    (hbup : b.node? up = (a.node? up).map fun n => { n with shape := n.shape.put slot new })
    (hbnew : b.node? new = (a.node? new).map fun n => { n with parent := some up })
    (hbold : (b.node? old).map Node.shape = (a.node? old).map Node.shape)
    (hb : ∀ j, j ≠ up → j ≠ new → j ≠ old → b.node? j = a.node? j) (j : NodeId) :
    (b.set .left new old).node? j = a.insertedNode? slot up old new j := by
  rw [node?_set _ _ hnew, insertedNode?]
  by_cases hjnew : j = new
  · subst hjnew
    rw [if_pos rfl, if_neg hne, if_pos rfl, hbnew, Option.map_map]
    rfl
  · rw [if_neg hjnew, if_neg hjnew]
    by_cases hjold : j = old
    · subst hjold
      rw [if_pos rfl, if_neg hold, if_pos rfl]
      -- Both sides put the same link beside the shape, so only the shapes have to agree.
      have hlinked := congrArg (Option.map fun shape => Node.mk shape (some new)) hbold
      rwa [Option.map_map, Option.map_map] at hlinked
    · rw [if_neg hjold, if_neg hjold]
      by_cases hjup : j = up
      · subst hjup
        rw [if_pos rfl, hbup]
      · rw [if_neg hjup, hb j hjup hjnew hjold]

/-- Replacing a child by an operator and making it the operand puts the operator in between. -/
theorem node?_replaceChild_set (hup : a.node? up = some ⟨shape, parent⟩)
    (hslot : shape.slotOf? old = some slot) (hparent : a.parent? old = some up)
    (hne : new ≠ up) (hold : old ≠ up) (hnew : old ≠ new) (j : NodeId) :
    ((a.replaceChild up old new).set .left new old).node? j =
      a.insertedNode? slot up old new j := by
  have hnode := a.node?_replaceChild hup hslot hparent hne hold hnew
  apply a.node?_set_left hne hold hnew
  · rw [hnode, if_pos rfl, hup]
    rfl
  · rw [hnode, if_neg hne, if_pos rfl]
  · rw [hnode, if_neg hold, if_neg hnew, if_pos rfl, Option.map_map]
    rfl
  · intro i hiup hinew hiold
    rw [hnode, if_neg hiup, if_neg hinew, if_neg hiold]

/-- Pushing the only child of a node down below an operator puts the operator in between. -/
theorem node?_pushDown (hold : (a.children up).head? = some old) (hne : new ≠ up)
    (holdup : old ≠ up) (hnew : old ≠ new) (j : NodeId) :
    (a.pushDown up new).node? j = a.insertedNode? .only up old new j := by
  simp only [pushDown, hold]
  have hnode := a.node?_set .only hne
  apply a.node?_set_left hne holdup hnew
  · rw [hnode, if_pos rfl]
  · rw [hnode, if_neg hne, if_pos rfl]
  · rw [hnode, if_neg holdup, if_neg hnew]
  · intro i hiup hinew _
    rw [hnode, if_neg hiup, if_neg hinew]

/-! ### Links upwards -/

/-- A new node has no link upwards, like one that is not there. -/
theorem parent?_push (shape : Shape) (j : NodeId) : (a.push shape).1.parent? j = a.parent? j := by
  rw [parent?, node?_push, parent?]
  split
  · next hj =>
    rw [hj, node?, Array.getElem?_eq_none (Nat.le_refl _)]
    rfl
  · rfl

theorem parent?_setParent (i : NodeId) (parent : Option NodeId) (hj : j ≠ i) :
    (a.setParent i parent).parent? j = a.parent? j := by
  rw [parent?, setParent, node?_update, if_neg hj, parent?]

/-- Only the child gets another link upwards. -/
theorem parent?_set (slot : Slot) (up : NodeId) (hj : j ≠ new) :
    (a.set slot up new).parent? j = a.parent? j := by
  rw [set, parent?_setParent _ _ _ hj, parent?, node?_update, parent?]
  split
  · rw [Option.bind_map]
    rfl
  · rfl

theorem parent?_attach (up : NodeId) (hj : j ≠ new) :
    (a.attach up new).parent? j = a.parent? j := by
  unfold attach
  split
  · exact parent?_set _ _ _ hj
  · rfl

theorem parent?_replaceChild (up : NodeId) (hnew : j ≠ new) (hold : j ≠ old) :
    (a.replaceChild up old new).parent? j = a.parent? j := by
  unfold replaceChild
  split
  · dsimp only
    split
    · rw [parent?_setParent _ _ _ hold, parent?_set _ _ _ hnew]
    · exact parent?_set _ _ _ hnew
  · rfl

theorem parent?_pushDown (hnew : j ≠ new) (hold : (a.children up).head? ≠ some j) :
    (a.pushDown up new).parent? j = a.parent? j := by
  simp only [pushDown]
  split
  · next previous hprevious =>
    have hj : j ≠ previous := by
      rintro rfl
      exact hold hprevious
    rw [parent?_set _ _ _ hj, parent?_set _ _ _ hnew]
  · exact parent?_set _ _ _ hnew

/-! ### The number of nodes -/

theorem size_push (shape : Shape) : (a.push shape).1.nodes.size = a.nodes.size + 1 :=
  Array.size_push _

theorem size_update (i : NodeId) (f : Node → Node) : (a.update i f).nodes.size = a.nodes.size :=
  Array.size_modify

theorem size_set (slot : Slot) (parent child : NodeId) :
    (a.set slot parent child).nodes.size = a.nodes.size := by
  rw [set, setParent, size_update, size_update]

end Arena

end VersionRules
