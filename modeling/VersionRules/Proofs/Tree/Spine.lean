import VersionRules.Proofs.Tree.Numbered

/-!
# The spine of a growing tree

What is still open in a growing tree lies on one path, from the place of the next token up to the
root: operators that wait for their right operand, and open parentheses. Each of them is a frame,
and the frames from the innermost outwards are the spine. Everything beside the spine is complete.

A complete operand below the spine can be counted to it as well: an operator frame together with
its right operand is a complete tree, and the arena does not change when it is regarded as one.

## Main definitions

* `Frame`, `Spine` — an operator or an open parenthesis around a hole, and the path of them
* `Spine.groups` — the open parentheses on the path
* `Spine.plug`, `Spine.absorb` — closes all frames, or those that bind tighter than an operator
* `Spine.StoredIn` — the arena holds the spine
* `Arena.Awaits`, `Arena.Holds` — the arena holds a spine alone, or a spine and an operand

## Main results

* `Spine.StoredIn.refill` — another child comes into the hole by a change of one node
* `Arena.holds_cons_iff`, `Arena.Holds.absorb` — closing frames does not change the arena
-/

namespace VersionRules

/-- What a hole for a tree stands under: an operator with its left operand, or an open
parenthesis. -/
inductive Frame
  | operator (number : NodeId) (token : Token) (left : NumberedTree)
  | group (number : NodeId) (token : Token)

namespace Frame

/-- The number of the node. -/
def number : Frame → NodeId
  | operator i _ _ | group i _ => i

/-- The numbers of the node and of what is beside the hole. -/
def numbers : Frame → List NodeId
  | operator i _ left => i :: left.numbers
  | group i _ => [i]

/-- The binding strength of an operator; nothing binds less than an open parenthesis. -/
def priority : Frame → Nat
  | operator _ t _ => t.priority
  | group _ _ => 0

/-- How many open parentheses there are around the hole and beside it. -/
def groupCount : Frame → Nat
  | operator _ _ left => left.groupCount
  | group _ _ => 1

/-- The frame with a tree in its hole. -/
def wrap : Frame → NumberedTree → NumberedTree
  | operator i t left, x => .binary i t left x
  | group i t, x => .group i t x

/-- What the node of a frame is, with a child in its hole or none. -/
def shape (child : Option NodeId) : Frame → Shape
  | operator _ t left => .binary t t.priority (some left.number) child
  | group _ t => .group t child

/-- The slot of the hole. -/
def slot : Frame → Slot
  | operator _ _ _ => .right
  | group _ _ => .only

/-- The arena holds what is beside the hole, and a group is an open parenthesis. -/
def SideIn (a : Arena) : Frame → Prop
  | operator i _ left => left.StoredIn a i
  | group _ t => t.kind = .lparen

variable {f : Frame} {x : NumberedTree}

@[simp]
theorem number_wrap : (f.wrap x).number = f.number := by
  cases f <;> rfl

theorem numbers_wrap : (f.wrap x).numbers = f.numbers ++ x.numbers := by
  cases f <;> rfl

theorem groupCount_wrap : (f.wrap x).groupCount = f.groupCount + x.groupCount := by
  cases f with
  | operator i t left => rfl
  | group i t => exact Nat.add_comm _ _

theorem number_mem_numbers : f.number ∈ f.numbers := by
  cases f <;> simp [number, numbers]

/-- Filling the hole puts the child into its slot. -/
theorem put_shape (child : Option NodeId) (c : NodeId) :
    (f.shape child).put f.slot c = f.shape (some c) := by
  cases f <;> rfl

/-- What is beside the hole depends on its own nodes only. -/
theorem SideIn.congr {a b : Arena} (h : f.SideIn a) (hnodup : f.numbers.Nodup)
    (hb : ∀ j ∈ f.numbers, j ≠ f.number → b.node? j = a.node? j) : f.SideIn b := by
  cases f with
  | group i t => exact h
  | operator i t left =>
    apply NumberedTree.StoredIn.congr h
    intro j hj
    apply hb j (List.mem_cons_of_mem _ hj)
    rintro rfl
    exact (List.nodup_cons.1 hnodup).1 hj

/-- The topmost node of a wrapped tree is stored with its links if that of the frame is, and the
rest of it likewise. -/
theorem storedIn_wrap {a : Arena} {p : NodeId} (hgroup : f.SideIn a) :
    (f.wrap x).StoredIn a p ↔
      a.node? f.number = some ⟨f.shape (some x.number), some p⟩ ∧ x.StoredIn a f.number := by
  cases f with
  | operator i t left => exact ⟨fun h => ⟨h.1, h.2.2⟩, fun h => ⟨h.1, hgroup, h.2⟩⟩
  | group i t => exact Iff.rfl

end Frame

/-- The frames around a hole, the innermost first; the outermost stands below the root. -/
abbrev Spine : Type :=
  List Frame

namespace Spine

/-- The number of the node that the hole belongs to. -/
def cursor : Spine → NodeId
  | [] => Arena.root
  | f :: _ => f.number

/-- The parent of that node. -/
def parent : Spine → Option NodeId
  | [] => none
  | _ :: s => some (cursor s)

/-- What that node is. -/
def shape (child : Option NodeId) : Spine → Shape
  | [] => .root child
  | f :: _ => f.shape child

/-- The slot of the hole. -/
def slot : Spine → Slot
  | [] => .only
  | f :: _ => f.slot

/-- The numbers of the nodes on the spine and beside it, the root included. -/
def numbers : Spine → List NodeId
  | [] => [Arena.root]
  | f :: s => numbers s ++ f.numbers

/-- How many open parentheses there are. -/
def groupCount : Spine → Nat
  | [] => 0
  | f :: s => groupCount s + f.groupCount

/-- The numbers and the tokens of the open parentheses around the hole, the innermost first. -/
def groups : Spine → List (NodeId × Token)
  | [] => []
  | .operator _ _ _ :: s => groups s
  | .group i t :: s => (i, t) :: groups s

/-- The tree that comes about when all frames are closed around an operand. -/
def plug : Spine → NumberedTree → NumberedTree
  | [], x => x
  | f :: s, x => plug s (f.wrap x)

/-- Closes the frames that bind tighter than `priority` around an operand. -/
def absorb (priority : Nat) : Spine → NumberedTree → Spine × NumberedTree
  | [], x => ([], x)
  | f :: s, x => if priority < f.priority then absorb priority s (f.wrap x) else (f :: s, x)

/-- The binding strength of the innermost frame. -/
def priority : Spine → Nat
  | [] => 0
  | f :: _ => f.priority

/-- The arena holds the spine, with a child in the hole or none. -/
def StoredIn (a : Arena) (child : Option NodeId) : Spine → Prop
  | [] => a.node? Arena.root = some ⟨.root child, none⟩
  | f :: s =>
    a.node? f.number = some ⟨f.shape child, some (cursor s)⟩ ∧ f.SideIn a ∧
      StoredIn a (some f.number) s

variable {a b : Arena} {s : Spine} {f : Frame} {x : NumberedTree} {child : Option NodeId}
  {i j c : NodeId} {p : Nat}

/-! ### Closing frames -/

theorem absorb_cons_of_lt (h : p < f.priority) :
    absorb p (f :: s) x = absorb p s (f.wrap x) :=
  if_pos h

/-- Nothing is closed below a frame that binds no tighter. -/
theorem absorb_of_priority_le (h : s.priority ≤ p) : s.absorb p x = (s, x) := by
  cases s with
  | nil => rfl
  | cons f s => exact if_neg (Nat.not_lt.2 h)

theorem priority_absorb_le : (s.absorb p x).1.priority ≤ p := by
  induction s generalizing x with
  | nil => exact Nat.zero_le p
  | cons f s ih =>
    by_cases h : p < f.priority
    · rw [absorb_cons_of_lt h]
      exact ih
    · rw [absorb_of_priority_le (Nat.not_lt.1 h)]
      exact Nat.not_lt.1 h

/-- Nothing binds tighter than an operator but another one, so no parenthesis is closed. -/
theorem groups_absorb : (s.absorb p x).1.groups = s.groups := by
  induction s generalizing x with
  | nil => rfl
  | cons f s ih =>
    by_cases h : p < f.priority
    · rw [absorb_cons_of_lt h, ih]
      cases f with
      | operator i t left => rfl
      | group i t => exact absurd h (Nat.not_lt_zero p)
    · rw [absorb_of_priority_le (Nat.not_lt.1 h)]

/-- Exactly the frames that bind tighter are closed. -/
theorem absorb_append {ops : Spine} (hops : ∀ f ∈ ops, p < f.priority) (hs : s.priority ≤ p) :
    absorb p (ops ++ s) x = (s, ops.plug x) := by
  induction ops generalizing x with
  | nil => exact absorb_of_priority_le hs
  | cons f ops ih =>
    rw [List.cons_append, absorb_cons_of_lt (hops f (by simp)),
      ih fun g hg => hops g (List.mem_cons_of_mem _ hg)]
    rfl

/-- What is closed is an initial part of the spine. -/
theorem absorb_suffix : (s.absorb p x).1 <:+ s := by
  induction s generalizing x with
  | nil => exact List.suffix_rfl
  | cons f s ih =>
    by_cases h : p < f.priority
    · rw [absorb_cons_of_lt h]
      exact ih.trans (List.suffix_cons f s)
    · exact ⟨[], congrArg Prod.fst (absorb_of_priority_le (Nat.not_lt.1 h))⟩

theorem plug_append {ops : Spine} : plug (ops ++ s) x = s.plug (ops.plug x) := by
  induction ops generalizing x with
  | nil => rfl
  | cons f ops ih => exact ih

theorem groupCount_plug : (s.plug x).groupCount = s.groupCount + x.groupCount := by
  induction s generalizing x with
  | nil => exact (Nat.zero_add _).symm
  | cons f s ih => rw [plug, ih, Frame.groupCount_wrap, groupCount, Nat.add_assoc]

/-- Closing a frame keeps the nodes in their order. -/
theorem numbers_cons_append : numbers (f :: s) ++ x.numbers = s.numbers ++ (f.wrap x).numbers := by
  rw [numbers, Frame.numbers_wrap, List.append_assoc]

theorem numbers_plug : Arena.root :: (s.plug x).numbers = s.numbers ++ x.numbers := by
  induction s generalizing x with
  | nil => rfl
  | cons f s ih => rw [plug, ih, numbers_cons_append]

theorem numbers_absorb :
    (s.absorb p x).1.numbers ++ (s.absorb p x).2.numbers = s.numbers ++ x.numbers := by
  induction s generalizing x with
  | nil => rfl
  | cons f s ih =>
    by_cases h : p < f.priority
    · rw [absorb_cons_of_lt h, ih, numbers_cons_append]
    · rw [absorb_of_priority_le (Nat.not_lt.1 h)]

theorem groupCount_absorb :
    (s.absorb p x).1.groupCount + (s.absorb p x).2.groupCount =
      s.groupCount + x.groupCount := by
  induction s generalizing x with
  | nil => rfl
  | cons f s ih =>
    by_cases h : p < f.priority
    · rw [absorb_cons_of_lt h, ih, Frame.groupCount_wrap, groupCount, Nat.add_assoc]
    · rw [absorb_of_priority_le (Nat.not_lt.1 h)]

/-! ### Spines in an arena -/

theorem cursor_mem_numbers (s : Spine) : s.cursor ∈ s.numbers := by
  cases s with
  | nil => simp [cursor, numbers]
  | cons f s => simp [cursor, numbers, Frame.number_mem_numbers]

theorem length_lt_length_numbers (s : Spine) : s.length < s.numbers.length := by
  induction s with
  | nil => simp [numbers]
  | cons f s ih =>
    have hf : 0 < f.numbers.length := List.length_pos_of_mem f.number_mem_numbers
    simp only [numbers, List.length_cons, List.length_append]
    omega

/-- The node that the hole belongs to. -/
theorem StoredIn.node?_cursor (h : s.StoredIn a child) :
    a.node? s.cursor = some ⟨s.shape child, s.parent⟩ := by
  cases s with
  | nil => exact h
  | cons f s => exact h.1

/-- Filling the hole puts the child into its slot. -/
theorem put_shape (s : Spine) (child : Option NodeId) (c : NodeId) :
    (s.shape child).put s.slot c = s.shape (some c) := by
  cases s with
  | nil => rfl
  | cons f s => exact Frame.put_shape child c

/-- The slot of an empty hole is the open one. -/
theorem openSlot?_shape (s : Spine) : (s.shape none).openSlot? = some s.slot := by
  cases s with
  | nil => rfl
  | cons f s => cases f <;> rfl

/-- What is not beside the hole is not the left operand. -/
theorem left_ne {t : Token} {left : NumberedTree} (h : c ∉ numbers (.operator i t left :: s)) :
    left.number ≠ c := by
  rintro rfl
  exact h (by simp [numbers, Frame.numbers, left.number_mem_numbers])

/-- A child that is not beside the hole is found in the slot of the hole. -/
theorem slotOf?_shape (h : c ∉ s.numbers) : (s.shape (some c)).slotOf? c = some s.slot := by
  cases s with
  | nil => simp [shape, slot, Shape.slotOf?]
  | cons f s =>
    cases f with
    | operator i t left => simp [shape, slot, Frame.shape, Frame.slot, Shape.slotOf?, left_ne h]
    | group i t => simp [shape, slot, Frame.shape, Frame.slot, Shape.slotOf?]

theorem StoredIn.lt_size (h : s.StoredIn a child) : ∀ j ∈ s.numbers, j < a.nodes.size := by
  -- Each further frame has the one before it as its child, so the child varies in the induction.
  induction s generalizing child with
  | nil =>
    intro j hj
    rw [List.mem_singleton.1 hj]
    exact Arena.lt_size_of_node? h
  | cons f s ih =>
    obtain ⟨hnode, hside, hs⟩ := h
    intro j hj
    rcases List.mem_append.1 hj with hj | hj
    · exact ih hs j hj
    · cases f with
      | group i t =>
        rw [List.mem_singleton.1 hj]
        exact Arena.lt_size_of_node? hnode
      | operator i t left =>
        rcases List.mem_cons.1 hj with rfl | hj
        · exact Arena.lt_size_of_node? hnode
        · exact NumberedTree.StoredIn.lt_size hside j hj

/-- A spine is untouched by changes to other nodes. -/
theorem StoredIn.congr (h : s.StoredIn a child) (hnodup : s.numbers.Nodup)
    (hb : ∀ j ∈ s.numbers, b.node? j = a.node? j) : s.StoredIn b child := by
  induction s generalizing child with
  | nil => exact (hb _ (cursor_mem_numbers [])).trans h
  | cons f s ih =>
    obtain ⟨hnode, hside, hs⟩ := h
    obtain ⟨hnodups, hnodupf, -⟩ := List.nodup_append.1 hnodup
    have hf : ∀ j ∈ f.numbers, b.node? j = a.node? j := by
      intro j hj
      exact hb j (List.mem_append_right _ hj)
    refine ⟨(hf _ f.number_mem_numbers).trans hnode, hside.congr hnodupf ?_, ih hs hnodups ?_⟩
    · intro j hj _
      exact hf j hj
    · intro j hj
      exact hb j (List.mem_append_left _ hj)

/-- Another child comes into the hole by a change of the innermost node alone. -/
theorem StoredIn.refill (h : s.StoredIn a child) (hnodup : s.numbers.Nodup)
    (hcursor : b.node? s.cursor = some ⟨s.shape (some c), s.parent⟩)
    (hb : ∀ j ∈ s.numbers, j ≠ s.cursor → b.node? j = a.node? j) : s.StoredIn b (some c) := by
  cases s with
  | nil => exact hcursor
  | cons f s =>
    obtain ⟨-, hside, hs⟩ := h
    obtain ⟨hnodups, hnodupf, hdisjoint⟩ := List.nodup_append.1 hnodup
    -- The innermost node is neither beside the hole nor further out on the spine.
    refine ⟨hcursor, hside.congr hnodupf ?_, hs.congr hnodups ?_⟩
    · intro j hj
      exact hb j (List.mem_append_right _ hj)
    · intro j hj
      exact hb j (List.mem_append_left _ hj) (hdisjoint j hj _ f.number_mem_numbers)

end Spine

/-! ### What an arena holds -/

namespace Arena

/-- The arena holds the spine, and nothing is in its hole yet. -/
structure Awaits (a : Arena) (s : Spine) : Prop where
  spine : s.StoredIn a none
  nodup : s.numbers.Nodup

/-- The arena holds the spine with the operand in its hole. -/
structure Holds (a : Arena) (s : Spine) (x : NumberedTree) : Prop where
  spine : s.StoredIn a (some x.number)
  operand : x.StoredIn a s.cursor
  nodup : (s.numbers ++ x.numbers).Nodup

variable {a b : Arena} {s : Spine} {f : Frame} {x : NumberedTree} {p steps : Nat}
  {new : NodeId} {t : Token}

theorem Holds.lt_size (h : a.Holds s x) : ∀ j ∈ s.numbers ++ x.numbers, j < a.nodes.size := by
  intro j hj
  rcases List.mem_append.1 hj with hj | hj
  · exact h.spine.lt_size j hj
  · exact h.operand.lt_size j hj

/-- The operand is not on the spine. -/
theorem Holds.number_notMem (h : a.Holds s x) : x.number ∉ s.numbers := by
  intro hmem
  exact (List.nodup_append.1 h.nodup).2.2 _ hmem _ x.number_mem_numbers rfl

/-- A frame and its operand are one complete operand of what is around them. -/
theorem holds_cons_iff : a.Holds (f :: s) x ↔ f.SideIn a ∧ a.Holds s (f.wrap x) := by
  -- Both sides list the same nodes in the same order, and ask the same links of each of them.
  constructor
  · rintro ⟨⟨hnode, hside, hs⟩, hx, hnodup⟩
    refine ⟨hside, ?_, (Frame.storedIn_wrap hside).2 ⟨hnode, hx⟩, ?_⟩
    · rwa [Frame.number_wrap]
    · rwa [← Spine.numbers_cons_append]
  · rintro ⟨hside, hs, hx, hnodup⟩
    obtain ⟨hnode, hx⟩ := (Frame.storedIn_wrap hside).1 hx
    rw [Frame.number_wrap] at hs
    rw [← Spine.numbers_cons_append] at hnodup
    exact ⟨⟨hnode, hside, hs⟩, hx, hnodup⟩

theorem Holds.plug (h : a.Holds s x) : a.Holds [] (s.plug x) := by
  induction s generalizing x with
  | nil => exact h
  | cons f s ih => exact ih (holds_cons_iff.1 h).2

theorem Holds.absorb (h : a.Holds s x) (p : Nat) :
    a.Holds (s.absorb p x).1 (s.absorb p x).2 := by
  induction s generalizing x with
  | nil => exact h
  | cons f s ih =>
    by_cases hf : p < f.priority
    · rw [Spine.absorb_cons_of_lt hf]
      exact ih (holds_cons_iff.1 h).2
    · rwa [Spine.absorb_of_priority_le (Nat.not_lt.1 hf)]

end Arena

end VersionRules
