import VersionRules.Proofs.Tree.Spine
import VersionRules.Tree.Parser

/-!
# Regrouping along the spine

The operations of an arena, as the growing tree uses them: a new node goes into the hole of the
spine, an operator comes between the spine and its operand, and a closed parenthesis gives its place
to what it holds. Going upwards from the hole finds the frames of the spine one after the other.

## Main definitions

* `Arena.Isolates` — no node but those in a list has a link upwards

## Main results

* `Arena.Awaits.attach_leaf`, `Arena.Awaits.attach_group` — a new node in the hole
* `Arena.Holds.inserted` — an operator between the spine and its operand
* `Arena.Holds.replaceChild` — an open parenthesis replaced by what it holds
* `Arena.Isolates.attach_push` and its like — only the nodes of the tree have links upwards
* `Arena.top_cursor`, `Arena.enclosingScope?_cursor`, `Arena.Holds.climb_eq` — the ways upwards
-/

namespace VersionRules

namespace Arena

variable {a b : Arena} {s : Spine} {f : Frame} {x : NumberedTree} {child : Option NodeId}
  {shape : Shape} {p steps : Nat} {i new : NodeId} {t : Token}

/-! ### New nodes -/

theorem node?_push_of_lt (h : i < a.nodes.size) (shape : Shape) :
    (a.push shape).1.node? i = a.node? i := by
  rw [node?_push, if_neg (Nat.ne_of_lt h)]

theorem node?_push_size (a : Arena) (shape : Shape) :
    (a.push shape).1.node? a.nodes.size = some ⟨shape, none⟩ := by
  rw [node?_push, if_pos rfl]

/-- A new node changes nothing that is held. -/
theorem Holds.push (h : a.Holds s x) (shape : Shape) : (a.push shape).1.Holds s x := by
  have hsame : ∀ j ∈ s.numbers ++ x.numbers, (a.push shape).1.node? j = a.node? j := by
    intro j hj
    exact node?_push_of_lt (h.lt_size j hj) shape
  refine ⟨h.spine.congr (List.nodup_append.1 h.nodup).1 ?_, h.operand.congr ?_, h.nodup⟩
  · intro j hj
    exact hsame j (List.mem_append_left _ hj)
  · intro j hj
    exact hsame j (List.mem_append_right _ hj)

/-- The number of a new node is not in use. -/
theorem Holds.size_notMem (h : a.Holds s x) : a.nodes.size ∉ s.numbers ++ x.numbers := by
  intro hmem
  exact Nat.lt_irrefl _ (h.lt_size _ hmem)

/-- A new node that is attached below the spine is in its hole. -/
theorem Awaits.attach_push (h : a.Awaits s) (shape : Shape) :
    s.StoredIn ((a.push shape).1.attach s.cursor a.nodes.size) (some a.nodes.size) ∧
      ((a.push shape).1.attach s.cursor a.nodes.size).node? a.nodes.size =
        some ⟨shape, some s.cursor⟩ ∧
      (s.numbers ++ [a.nodes.size]).Nodup := by
  have hlt := h.spine.lt_size
  have hcursor : s.cursor < a.nodes.size := hlt _ s.cursor_mem_numbers
  have hnode : (a.push shape).1.node? s.cursor = some ⟨s.shape none, s.parent⟩ := by
    rw [node?_push_of_lt hcursor, h.spine.node?_cursor]
  have hattach : (a.push shape).1.attach s.cursor a.nodes.size =
      (a.push shape).1.set s.slot s.cursor a.nodes.size := by
    simp only [attach, shape?_of_node? hnode, Option.bind_some, s.openSlot?_shape]
  have hset := (a.push shape).1.node?_set s.slot (Nat.ne_of_gt hcursor)
  rw [hattach]
  refine ⟨h.spine.refill h.nodup ?_ ?_, ?_, ?_⟩
  · rw [hset, if_pos rfl, hnode, Option.map_some, s.put_shape]
  · intro j hj hne
    rw [hset, if_neg hne, if_neg (Nat.ne_of_lt (hlt j hj)), node?_push_of_lt (hlt j hj)]
  · rw [hset, if_neg (Nat.ne_of_gt hcursor), if_pos rfl, node?_push_size, Option.map_some]
  · -- The number of the new node is the size of the arena, above all numbers on the spine.
    refine List.nodup_append.2 ⟨h.nodup, List.nodup_singleton _, ?_⟩
    intro j hj k hk
    rw [List.mem_singleton.1 hk]
    exact Nat.ne_of_lt (hlt j hj)

/-- A new term in the hole is the operand. -/
theorem Awaits.attach_leaf (h : a.Awaits s) (t : Token) :
    ((a.push (.leaf t)).1.attach s.cursor a.nodes.size).Holds s (.leaf a.nodes.size t) := by
  obtain ⟨hs, hleaf, hnodup⟩ := h.attach_push (.leaf t)
  exact ⟨hs, hleaf, hnodup⟩

/-- A new open parenthesis in the hole has a hole of its own. -/
theorem Awaits.attach_group (h : a.Awaits s) (ht : t.kind = .lparen) :
    ((a.push (.group t none)).1.attach s.cursor a.nodes.size).Awaits
      (.group a.nodes.size t :: s) := by
  obtain ⟨hs, hgroup, hnodup⟩ := h.attach_push (.group t none)
  exact ⟨⟨hgroup, ht, hs⟩, hnodup⟩

/-! ### Operators and parentheses -/

/-- A new node, the innermost node of the spine and the topmost one of the operand are three. -/
theorem Holds.distinct (h : a.Holds s x) (hnew : new ∉ s.numbers ++ x.numbers) :
    new ≠ s.cursor ∧ x.number ≠ s.cursor ∧ x.number ≠ new := by
  rw [List.mem_append, not_or] at hnew
  refine ⟨?_, ?_, ?_⟩
  · rintro rfl
    exact hnew.1 s.cursor_mem_numbers
  · intro heq
    exact h.number_notMem (heq ▸ s.cursor_mem_numbers)
  · rintro rfl
    exact hnew.2 x.number_mem_numbers

/-- An operator between the spine and its operand is a frame with the operand on its left. -/
theorem Holds.inserted (h : a.Holds s x) (hnew : new ∉ s.numbers ++ x.numbers)
    (hnode : a.node? new = some ⟨.binary t t.priority none none, none⟩)
    (hb : ∀ j, b.node? j = a.insertedNode? s.slot s.cursor x.number new j) :
    b.Awaits (.operator new t x :: s) := by
  obtain ⟨hcursor, hnumbercursor, hnumber⟩ := h.distinct hnew
  rw [List.mem_append, not_or] at hnew
  obtain ⟨hnodups, hnodupx, hdisjoint⟩ := List.nodup_append.1 h.nodup
  have hs : s.StoredIn b (some new) := by
    apply h.spine.refill hnodups
    · rw [hb, insertedNode?, if_pos rfl, h.spine.node?_cursor, Option.map_some, s.put_shape]
    · intro j hj hne
      have hjnew : j ≠ new := fun heq => hnew.1 (heq ▸ hj)
      have hjx : j ≠ x.number := fun heq => h.number_notMem (heq ▸ hj)
      rw [hb, insertedNode?, if_neg hne, if_neg hjnew, if_neg hjx]
  have hx : x.StoredIn b new := by
    apply h.operand.move hnodupx
    · rw [hb, insertedNode?, if_neg hnumbercursor, if_neg hnumber, if_pos rfl]
    · intro j hj hne
      have hjcursor : j ≠ s.cursor := (hdisjoint _ s.cursor_mem_numbers j hj).symm
      have hjnew : j ≠ new := fun heq => hnew.2 (heq ▸ hj)
      rw [hb, insertedNode?, if_neg hjcursor, if_neg hjnew, if_neg hne]
  refine ⟨⟨?_, hx, hs⟩, ?_⟩
  · rw [Frame.number, hb, insertedNode?, if_neg hcursor, if_pos rfl, hnode]
    rfl
  · -- The new frame lists its own node and those of the operand, which have changed places only.
    refine List.nodup_append.2 ⟨hnodups, List.nodup_cons.2 ⟨hnew.2, hnodupx⟩, ?_⟩
    rintro j hj k hk rfl
    rcases List.mem_cons.1 hk with rfl | hk
    · exact hnew.1 hj
    · exact hdisjoint j hj j hk rfl

/-- Taking the operand from under the spine inserts an operator. -/
theorem Holds.replaceChild_set (h : a.Holds s x) (hnew : new ∉ s.numbers ++ x.numbers)
    (hnode : a.node? new = some ⟨.binary t t.priority none none, none⟩) :
    ((a.replaceChild s.cursor x.number new).set .left new x.number).Awaits
      (.operator new t x :: s) := by
  obtain ⟨hcursor, hnumbercursor, hnumber⟩ := h.distinct hnew
  have hslot := s.slotOf?_shape h.number_notMem
  exact h.inserted hnew hnode (a.node?_replaceChild_set h.spine.node?_cursor hslot
    h.operand.parent? hcursor hnumbercursor hnumber)

/-- Where the innermost node has one slot only, the operand is its first child. -/
theorem Holds.head?_children (h : a.Holds s x) (hslot : s.slot = .only) :
    (a.children s.cursor).head? = some x.number := by
  rw [children_of_node? h.spine.node?_cursor]
  cases s with
  | nil => rfl
  | cons f s =>
    cases f with
    | group i u => rfl
    | operator i u left => exact absurd hslot Slot.noConfusion

/-- Pushing the operand down inserts an operator where the innermost node has one slot only. -/
theorem Holds.pushDown (h : a.Holds s x) (hslot : s.slot = .only)
    (hnew : new ∉ s.numbers ++ x.numbers)
    (hnode : a.node? new = some ⟨.binary t t.priority none none, none⟩) :
    (a.pushDown s.cursor new).Awaits (.operator new t x :: s) := by
  obtain ⟨hcursor, hnumbercursor, hnumber⟩ := h.distinct hnew
  apply h.inserted hnew hnode
  rw [hslot]
  exact a.node?_pushDown (h.head?_children hslot) hcursor hnumbercursor hnumber

/-- The nodes of the innermost open parenthesis and of what is around it are three, and none of them
but the topmost is in what it holds. -/
theorem Holds.group_distinct (h : a.Holds (.group i t :: s) x) :
    i ∉ s.numbers ∧ i ≠ s.cursor ∧ ∀ j ∈ x.numbers, j ∉ s.numbers ∧ j ≠ i ∧ j ≠ s.cursor := by
  obtain ⟨hnodupsi, -, hdisjoint⟩ := List.nodup_append.1 h.nodup
  obtain ⟨-, -, hdisjointi⟩ := List.nodup_append.1 hnodupsi
  have hi : i ∉ s.numbers := by
    intro hmem
    exact hdisjointi i hmem i (List.mem_singleton_self i) rfl
  refine ⟨hi, fun heq => hi (heq ▸ s.cursor_mem_numbers), ?_⟩
  intro j hj
  have hmem : j ∉ s.numbers := by
    intro hmem
    exact hdisjoint j (List.mem_append_left _ hmem) j hj rfl
  refine ⟨hmem, ?_, fun heq => hmem (heq ▸ s.cursor_mem_numbers)⟩
  intro heq
  exact hdisjoint j (List.mem_append_right _ (List.mem_singleton.2 heq)) j hj rfl

/-- The nodes after a parenthesis was closed. -/
theorem Holds.node?_replaceChild (h : a.Holds (.group i t :: s) x) (j : NodeId) :
    (a.replaceChild s.cursor i x.number).node? j =
      if j = s.cursor then some ⟨s.shape (some x.number), s.parent⟩
      else if j = x.number then (a.node? j).map fun n => { n with parent := some s.cursor }
      else if j = i then (a.node? j).map fun n => { n with parent := none }
      else a.node? j := by
  obtain ⟨hi, hicursor, hx⟩ := h.group_distinct
  obtain ⟨-, hxi, hxcursor⟩ := hx _ x.number_mem_numbers
  have hgroup : a.node? i = some ⟨.group t (some x.number), some s.cursor⟩ := h.spine.1
  have hs : s.StoredIn a (some i) := h.spine.2.2
  rw [a.node?_replaceChild hs.node?_cursor (s.slotOf?_shape hi)
    (parent?_of_node? hgroup) hxcursor hicursor hxi.symm, s.put_shape]

/-- A closed parenthesis gives its place to what it holds. -/
theorem Holds.replaceChild (h : a.Holds (.group i t :: s) x) :
    (a.replaceChild s.cursor i x.number).Holds s x := by
  have hs : s.StoredIn a (some i) := h.spine.2.2
  obtain ⟨hnodupsi, hnodupx, hdisjoint⟩ := List.nodup_append.1 h.nodup
  obtain ⟨hi, -, hx⟩ := h.group_distinct
  obtain ⟨hnumber, -, hnumbercursor⟩ := hx _ x.number_mem_numbers
  have hnodups := (List.nodup_append.1 hnodupsi).1
  have hnode := h.node?_replaceChild
  refine ⟨hs.refill hnodups ?_ ?_, h.operand.move hnodupx ?_ ?_,
    List.nodup_append.2 ⟨hnodups, hnodupx, ?_⟩⟩
  · rw [hnode, if_pos rfl]
  · intro j hj hne
    have hjx : j ≠ x.number := fun heq => hnumber (heq ▸ hj)
    have hji : j ≠ i := fun heq => hi (heq ▸ hj)
    rw [hnode, if_neg hne, if_neg hjx, if_neg hji]
  · rw [hnode, if_neg hnumbercursor, if_pos rfl]
  · intro j hj hne
    obtain ⟨-, hji, hjcursor⟩ := hx j hj
    rw [hnode, if_neg hjcursor, if_neg hne, if_neg hji]
  · intro j hj
    exact hdisjoint j (List.mem_append_left _ hj)

/-! ### Nodes that are not in the tree -/

/-- No node but those in a list has a link upwards. -/
def Isolates (a : Arena) (js : List NodeId) : Prop :=
  ∀ j, j ∉ js → a.parent? j = none

section Isolates

variable {j : NodeId} {js : List NodeId}

theorem isolates_empty : Isolates .empty [root] := by
  intro j hj
  have hne : j ≠ 0 := fun heq => hj (heq ▸ List.mem_singleton_self root)
  obtain ⟨k, rfl⟩ := Nat.exists_eq_succ_of_ne_zero hne
  rfl

theorem Isolates.push (h : a.Isolates js) (shape : Shape) : (a.push shape).1.Isolates js := by
  intro j hj
  rw [parent?_push]
  exact h j hj

theorem Isolates.attach_push (h : a.Isolates js) (up : NodeId) (shape : Shape) :
    ((a.push shape).1.attach up a.nodes.size).Isolates (js ++ [a.nodes.size]) := by
  intro j hj
  rw [List.mem_append, List.mem_singleton, not_or] at hj
  rw [parent?_attach _ _ hj.2]
  exact h.push shape j hj.1

/-- A node that is neither on the spine with the new operator nor below it is none of the nodes that
were linked. -/
theorem notMem_of_notMem_operator (hj : j ∉ Spine.numbers (.operator new t x :: s)) :
    j ∉ s.numbers ++ x.numbers ∧ j ≠ new ∧ j ≠ x.number := by
  simp only [Spine.numbers, Frame.numbers, List.mem_append, List.mem_cons, not_or] at hj ⊢
  obtain ⟨hs, hnew, hx⟩ := hj
  exact ⟨⟨hs, hx⟩, hnew, fun heq => hx (heq ▸ x.number_mem_numbers)⟩

theorem Isolates.replaceChild_set (h : a.Isolates (s.numbers ++ x.numbers)) (up : NodeId) :
    ((a.replaceChild up x.number new).set .left new x.number).Isolates
      (Spine.numbers (.operator new t x :: s)) := by
  intro j hj
  obtain ⟨hjold, hjnew, hjx⟩ := notMem_of_notMem_operator hj
  rw [parent?_set _ _ _ hjx, parent?_replaceChild _ _ hjnew hjx]
  exact h j hjold

theorem Holds.isolates_pushDown (h : a.Holds s x) (hslot : s.slot = .only)
    (hisolates : a.Isolates (s.numbers ++ x.numbers)) :
    (a.pushDown s.cursor new).Isolates (Spine.numbers (.operator new t x :: s)) := by
  intro j hj
  obtain ⟨hjold, hjnew, hjx⟩ := notMem_of_notMem_operator hj
  rw [parent?_pushDown _ hjnew]
  · exact hisolates j hjold
  · rw [h.head?_children hslot]
    exact fun heq => hjx (Option.some.inj heq).symm

/-- A closed parenthesis has no link upwards. -/
theorem Holds.isolates_replaceChild (h : a.Holds (.group i t :: s) x)
    (hisolates : a.Isolates (Spine.numbers (.group i t :: s) ++ x.numbers)) :
    (a.replaceChild s.cursor i x.number).Isolates (s.numbers ++ x.numbers) := by
  intro j hj
  rw [List.mem_append, not_or] at hj
  have hjcursor : j ≠ s.cursor := fun heq => hj.1 (heq ▸ s.cursor_mem_numbers)
  have hjx : j ≠ x.number := fun heq => hj.2 (heq ▸ x.number_mem_numbers)
  rw [parent?, h.node?_replaceChild, if_neg hjcursor, if_neg hjx]
  split
  · rw [Option.bind_map]
    exact Option.bind_fun_none _
  · next hji =>
    refine hisolates j fun hmem => ?_
    simp only [Spine.numbers, Frame.numbers, List.mem_append, List.mem_singleton] at hmem
    tauto

end Isolates

/-! ### The ways upwards -/

/-- Going upwards from the hole ends at the root. -/
theorem topWithin_cursor (h : s.StoredIn a child) (hsteps : s.length ≤ steps) :
    a.topWithin steps s.cursor = root := by
  -- One step of the walk passes one frame of the spine.
  induction s generalizing child steps with
  | nil =>
    have hroot : a.node? root = some ⟨.root child, none⟩ := h
    cases steps with
    | zero => rfl
    | succ steps => simp only [Spine.cursor, topWithin, parent?, hroot, Option.bind_some]
  | cons f s ih =>
    cases steps with
    | zero => simp at hsteps
    | succ steps =>
      simp only [Spine.cursor, topWithin, parent?, h.1, Option.bind_some]
      exact ih h.2.2 (Nat.le_of_succ_le_succ hsteps)

/-- The nearest open parenthesis from the hole upwards is the innermost one of the spine. -/
theorem enclosingScopeWithin?_cursor (h : s.StoredIn a child) (hsteps : s.length < steps) :
    a.enclosingScopeWithin? steps s.cursor = s.groups.head?.map Prod.fst := by
  induction s generalizing child steps with
  | nil =>
    have hroot : a.node? root = some ⟨.root child, none⟩ := h
    cases steps with
    | zero => rfl
    | succ steps =>
      simp [Spine.cursor, Spine.groups, enclosingScopeWithin?, isParenScope, shape?, parent?,
        hroot, Shape.isParenScope]
  | cons f s ih =>
    obtain ⟨hnode, hside, hs⟩ := h
    cases steps with
    | zero => simp at hsteps
    | succ steps =>
      cases f with
      | group i t =>
        have ht : t.kind = .lparen := hside
        have hgroup : a.node? i = some ⟨.group t child, some (Spine.cursor s)⟩ := hnode
        have hscope : a.isParenScope i := by
          simp only [isParenScope, shape?, hgroup, Option.map_some, Shape.isParenScope, ht,
            decide_true]
        simp only [Spine.cursor, Frame.number, enclosingScopeWithin?, hscope, if_true,
          Spine.groups, List.head?_cons, Option.map_some]
      | operator i t left =>
        -- The walk does not stop at an operator.
        have hscope : a.isParenScope (Frame.operator i t left).number = false := by
          simp only [isParenScope, shape?, hnode, Option.map_some, Frame.shape,
            Shape.isParenScope]
        simp only [Spine.cursor, enclosingScopeWithin?, hscope, parent?, hnode, Option.bind_some]
        exact ih hs (Nat.lt_of_succ_lt_succ hsteps)

/-- The highest node that an operator goes above is the top of what it closes. -/
theorem Holds.climbWithin_eq (h : a.Holds s x) (hsteps : s.length ≤ steps) :
    Builder.climbWithin a p steps x.number = (s.absorb p x).2.number := by
  induction s generalizing x steps with
  | nil =>
    have hroot : a.node? root = some ⟨.root (some x.number), none⟩ := h.spine
    cases steps with
    | zero => rfl
    | succ steps =>
      simp only [Builder.climbWithin, h.operand.parent?, Spine.cursor, shape?, hroot,
        Option.map_some, Spine.absorb]
  | cons f s ih =>
    cases steps with
    | zero => simp at hsteps
    | succ steps =>
      have hnode := h.spine.1
      by_cases hf : p < f.priority
      · -- The walk goes on from the frame, which is then the topmost node of a larger operand.
        rw [Spine.absorb_cons_of_lt hf, ← ih (holds_cons_iff.1 h).2
          (Nat.le_of_succ_le_succ hsteps), Frame.number_wrap]
        cases f with
        | group i t => exact absurd hf (Nat.not_lt_zero p)
        | operator i t left =>
          simp only [Builder.climbWithin, h.operand.parent?, Spine.cursor, shape?, hnode,
            Option.map_some, Frame.shape]
          exact if_pos hf
      · -- The walk stops below an open parenthesis, and below an operator that binds no tighter.
        rw [Spine.absorb_of_priority_le (Nat.not_lt.1 hf)]
        cases f with
        | group i t =>
          simp only [Builder.climbWithin, h.operand.parent?, Spine.cursor, shape?, hnode,
            Option.map_some, Frame.shape]
        | operator i t left =>
          simp only [Builder.climbWithin, h.operand.parent?, Spine.cursor, shape?, hnode,
            Option.map_some, Frame.shape]
          exact if_neg hf

/-- A spine is no longer than the arena is large, so that the bound on a walk never stops it. -/
theorem length_lt_size (h : s.StoredIn a child) (hnodup : s.numbers.Nodup) :
    s.length < a.nodes.size :=
  Nat.lt_of_lt_of_le s.length_lt_length_numbers (length_le_size hnodup h.lt_size)

theorem top_cursor (h : s.StoredIn a child) (hnodup : s.numbers.Nodup) : a.top s.cursor = root :=
  topWithin_cursor h (Nat.le_of_lt (length_lt_size h hnodup))

theorem enclosingScope?_cursor (h : s.StoredIn a child) (hnodup : s.numbers.Nodup) :
    a.enclosingScope? s.cursor = s.groups.head?.map Prod.fst :=
  enclosingScopeWithin?_cursor h (length_lt_size h hnodup)

theorem Holds.climb_eq (h : a.Holds s x) :
    Builder.climb a p x.number = (s.absorb p x).2.number :=
  h.climbWithin_eq (Nat.le_of_lt (length_lt_size h.spine (List.nodup_append.1 h.nodup).1))

end Arena

end VersionRules
