import Mathlib.Data.List.Chain
import VersionRules.Proofs.Tree.Growth
import VersionRules.Proofs.Tree.Unfolding

/-!
# Links upwards and downwards

A growing arena contains more than its tree: a closed parenthesis leaves a node behind that still
links to what it held. Nothing links to such a node, and it has no link upwards, so that the two
kinds of links agree on all that is reached from the root, and every walk upwards comes to an end.

## Main definitions

* `Arena.LinksUp`, `Arena.Reached` — one link upwards, and what links downwards lead to
* `Arena.Rooted` — links upwards lead to the root, and to the node that lists the child
* `Arena.Placed` — a node from which links upwards lead to the root, each to a node that lists it
* `Arena.RightPath` — a way downwards through right operands that bind ever tighter
* `Spine.path` — the nodes on the way from the hole upwards

## Main results

* `Arena.parent?_topWithin` — without cycles, the bound on a walk upwards never stops it
* `Reading.StoredIn.reached_iff`, `Reading.StoredIn.rooted` — the nodes of what has been read are
  those that are reached, and links agree on them
* `Spine.StoredIn.linksUp_iff`, `Spine.StoredIn.rightPath` — the ways from the hole upwards and down
  to it
-/

namespace VersionRules

namespace Arena

/-- A node links upwards to another one. -/
def LinksUp (a : Arena) (i p : NodeId) : Prop :=
  a.parent? i = some p

/-- Links downwards lead from the root to a node. -/
def Reached (a : Arena) (i : NodeId) : Prop :=
  Relation.ReflTransGen a.IsChild root i

/-- Following links upwards comes to an end, and for what is reached from the root each of them
leads to a node that is reached as well and lists the child once. -/
structure Rooted (a : Arena) : Prop where
  parent?_root : a.parent? root = none
  acyclic : ∀ i, ¬ Relation.TransGen a.LinksUp i i
  top_spec : ∀ i, Relation.ReflTransGen a.LinksUp i (a.top i) ∧ a.parent? (a.top i) = none
  listed : ∀ i, a.Reached i → i ≠ root →
    ∃ p, a.LinksUp i p ∧ a.Reached p ∧ (a.children p).count i = 1

/-- Links upwards lead from a node to the root, each to a node that lists the child once. -/
inductive Placed (a : Arena) : NodeId → Prop
  | root (h : a.parent? root = none) : Placed a root
  | listed {i p : NodeId} (hp : Placed a p) (hlink : a.LinksUp i p)
      (hcount : (a.children p).count i = 1) : Placed a i

/-- Links downwards lead from `top` to a node through right operands only, each of which binds at
least as tightly as the operator above it. -/
inductive RightPath (a : Arena) (top : NodeId) : NodeId → Prop
  | top : RightPath a top top
  | first {i : NodeId} {t : Token} {p : Nat} {left right : Option NodeId}
      (hi : i ∈ a.children top) (hshape : a.shape? i = some (.binary t p left right)) :
      RightPath a top i
  | right {i j : NodeId} {t u : Token} {p q : Nat} {left left' right : Option NodeId}
      (h : RightPath a top i) (hi : a.shape? i = some (.binary t p left (some j)))
      (hj : a.shape? j = some (.binary u q left' right)) (hpq : p ≤ q) : RightPath a top j

variable {a : Arena} {i j p q top : NodeId} {steps : Nat} {shape : Shape} {parent : Option NodeId}

/-! ### Walks upwards -/

theorem LinksUp.eq (h : a.LinksUp i p) (h' : a.LinksUp i q) : p = q :=
  Option.some.inj (h.symm.trans h')

theorem LinksUp.lt_size (h : a.LinksUp i p) : i < a.nodes.size := by
  obtain ⟨n, hn, -⟩ := Option.bind_eq_some_iff.1 h
  exact lt_size_of_node? hn

/-- A way upwards that comes to an end is not part of a cycle. -/
theorem not_transGen_of_linksUp (htop : a.parent? top = none)
    (h : Relation.ReflTransGen a.LinksUp i top) : ¬ Relation.TransGen a.LinksUp i i := by
  induction h using Relation.ReflTransGen.head_induction_on with
  | refl =>
    intro hcycle
    obtain ⟨p, hp, -⟩ := Relation.TransGen.head'_iff.1 hcycle
    cases htop.symm.trans hp
  | head hlink _ ih =>
    -- There is one way upwards only, so the node above is on the same cycle.
    intro hcycle
    obtain ⟨p, hp, hback⟩ := Relation.TransGen.head'_iff.1 hcycle
    obtain rfl := hlink.eq hp
    exact ih (Relation.TransGen.tail' hback hlink)

theorem reflTransGen_topWithin (steps : Nat) (i : NodeId) :
    Relation.ReflTransGen a.LinksUp i (a.topWithin steps i) := by
  induction steps generalizing i with
  | zero => exact .refl
  | succ steps ih =>
    rw [topWithin]
    split
    · next p hp => exact .head hp (ih p)
    · exact .refl

/-- As many steps are left as there are nodes that have not been passed, so that a walk upwards ends
where there is no link. -/
theorem parent?_topWithin (hacyclic : ∀ i, ¬ Relation.TransGen a.LinksUp i i)
    {below : List NodeId} (hnodup : below.Nodup)
    (hbelow : ∀ j ∈ below, Relation.TransGen a.LinksUp j i)
    (hsteps : a.nodes.size ≤ below.length + steps) : a.parent? (a.topWithin steps i) = none := by
  induction steps generalizing i below with
  | zero =>
    -- Without a step left all nodes have been passed, and a link would make `i` another one.
    by_contra hsome
    obtain ⟨p, hp⟩ := Option.ne_none_iff_exists'.1 hsome
    have hpassed : ∀ j ∈ i :: below, j < a.nodes.size := by
      intro j hj
      rcases List.mem_cons.1 hj with rfl | hj
      · exact LinksUp.lt_size hp
      · obtain ⟨q, hq, -⟩ := Relation.TransGen.head'_iff.1 (hbelow j hj)
        exact LinksUp.lt_size hq
    have hlength := length_le_size
      (List.nodup_cons.2 ⟨fun hi => hacyclic i (hbelow i hi), hnodup⟩) hpassed
    rw [List.length_cons] at hlength
    omega
  | succ steps ih =>
    rw [topWithin]
    split
    · next p hp =>
      refine ih (List.nodup_cons.2 ⟨fun hi => hacyclic i (hbelow i hi), hnodup⟩) ?_ ?_
      · intro j hj
        rcases List.mem_cons.1 hj with rfl | hj
        · exact .single hp
        · exact (hbelow j hj).tail hp
      · rw [List.length_cons]
        omega
    · next hp => exact hp

theorem parent?_top (hacyclic : ∀ i, ¬ Relation.TransGen a.LinksUp i i) (i : NodeId) :
    a.parent? (a.top i) = none :=
  parent?_topWithin hacyclic List.nodup_nil nofun (Nat.le_add_left _ _)

/-! ### Placed nodes -/

namespace Placed

theorem parent?_root (h : a.Placed i) : a.parent? Arena.root = none := by
  induction h with
  | root h => exact h
  | listed _ _ _ ih => exact ih

theorem linksUp_root (h : a.Placed i) : Relation.ReflTransGen a.LinksUp i Arena.root := by
  induction h with
  | root => exact .refl
  | listed _ hlink _ ih => exact .head hlink ih

theorem reached (h : a.Placed i) : a.Reached i := by
  induction h with
  | root => exact .refl
  | listed _ _ hcount ih =>
    exact ih.tail (List.count_pos_iff.1 (Nat.lt_of_lt_of_eq Nat.one_pos hcount.symm))

/-- Below the root, a placed node is in the list of the node above it. -/
theorem exists_parent (h : a.Placed i) (hi : i ≠ Arena.root) :
    ∃ p, a.LinksUp i p ∧ a.Placed p ∧ (a.children p).count i = 1 := by
  cases h with
  | root => exact absurd rfl hi
  | listed hp hlink hcount => exact ⟨_, hlink, hp, hcount⟩

end Placed

end Arena

/-! ### Complete trees -/

namespace NumberedTree

variable {a : Arena} {x : NumberedTree} {p i j : NodeId}

/-- Every node of a stored tree is the topmost one of a stored tree. -/
theorem StoredIn.exists_subtree (h : x.StoredIn a p) (hi : i ∈ x.numbers) :
    ∃ (y : NumberedTree) (q : NodeId), y.number = i ∧ y.StoredIn a q ∧ y.numbers ⊆ x.numbers ∧
      y.groupCount ≤ x.groupCount := by
  induction x generalizing p with
  | leaf k t =>
    obtain rfl := List.mem_singleton.1 hi
    exact ⟨.leaf i t, p, rfl, h, List.Subset.refl _, Nat.le_refl _⟩
  | group k t child ih =>
    rcases List.mem_cons.1 hi with rfl | hi
    · exact ⟨.group i t child, p, rfl, h, List.Subset.refl _, Nat.le_refl _⟩
    · obtain ⟨y, q, hnumber, hy, hsub, hcount⟩ := ih h.2 hi
      have hsub' := List.Subset.trans hsub (List.subset_cons_self k child.numbers)
      exact ⟨y, q, hnumber, hy, hsub', Nat.le_succ_of_le hcount⟩
  | binary k t left right ihl ihr =>
    rcases List.mem_cons.1 hi with rfl | hi
    · exact ⟨.binary i t left right, p, rfl, h, List.Subset.refl _, Nat.le_refl _⟩
    · rcases List.mem_append.1 hi with hi | hi
      · obtain ⟨y, q, hnumber, hy, hsub, hcount⟩ := ihl h.2.1 hi
        refine ⟨y, q, hnumber, hy, fun j hj => ?_, Nat.le_add_right_of_le hcount⟩
        exact List.mem_cons_of_mem _ (List.mem_append_left _ (hsub hj))
      · obtain ⟨y, q, hnumber, hy, hsub, hcount⟩ := ihr h.2.2 hi
        refine ⟨y, q, hnumber, hy, fun j hj => ?_, Nat.le_add_left_of_le hcount⟩
        exact List.mem_cons_of_mem _ (List.mem_append_right _ (hsub hj))

/-- The children of a stored tree's nodes are among them. -/
theorem StoredIn.children_subset (h : x.StoredIn a p) (hi : i ∈ x.numbers) :
    a.children i ⊆ x.numbers := by
  obtain ⟨y, q, rfl, hy, hsub, -⟩ := h.exists_subtree hi
  refine List.Subset.trans ?_ hsub
  cases y with
  | leaf k t =>
    rw [number_leaf, Arena.children_of_node? hy]
    exact List.nil_subset _
  | group k t child =>
    rw [number_group, Arena.children_of_node? hy.1]
    simp [Shape.children, numbers, child.number_mem_numbers]
  | binary k t left right =>
    rw [number_binary, Arena.children_of_node? hy.1]
    simp [Shape.children, numbers, left.number_mem_numbers, right.number_mem_numbers]

/-- No operator of a stored tree lacks an operand, and its open parentheses are counted. -/
theorem StoredIn.shape?_cases (h : x.StoredIn a p) (hcount : x.groupCount = 0)
    (hi : i ∈ x.numbers) :
    (∃ t, a.shape? i = some (.leaf t)) ∨
      ∃ t priority left right, a.shape? i = some (.binary t priority (some left) (some right)) := by
  obtain ⟨y, q, rfl, hy, -, hle⟩ := h.exists_subtree hi
  cases y with
  | leaf k t =>
    refine .inl ⟨t, ?_⟩
    exact Arena.shape?_of_node? hy
  | group k t child =>
    rw [groupCount] at hle
    omega
  | binary k t left right =>
    refine .inr ⟨t, t.priority, left.number, right.number, ?_⟩
    exact Arena.shape?_of_node? hy.1

/-- A stored tree below a placed node consists of placed nodes. -/
theorem StoredIn.placed (h : x.StoredIn a p) (hnodup : x.numbers.Nodup) (hp : a.Placed p)
    (hcount : (a.children p).count x.number = 1) : ∀ j ∈ x.numbers, a.Placed j := by
  have htop : a.Placed x.number := .listed hp h.parent? hcount
  induction x generalizing p with
  | leaf i t =>
    intro j hj
    obtain rfl := List.mem_singleton.1 hj
    exact htop
  | group i t child ih =>
    have hcountchild : (a.children i).count child.number = 1 := by
      simp [Arena.children_of_node? h.1, Shape.children]
    have hchild := ih h.2 (List.nodup_cons.1 hnodup).2 htop hcountchild
      (.listed htop h.2.parent? hcountchild)
    intro j hj
    rcases List.mem_cons.1 hj with rfl | hj
    · exact htop
    · exact hchild j hj
  | binary i t left right ihl ihr =>
    -- The operands have different numbers, so each of the two is listed once.
    obtain ⟨hnodupl, hnodupr, hdisjoint⟩ := List.nodup_append.1 (List.nodup_cons.1 hnodup).2
    have hne : left.number ≠ right.number :=
      hdisjoint _ left.number_mem_numbers _ right.number_mem_numbers
    have hcountl : (a.children i).count left.number = 1 := by
      simp [Arena.children_of_node? h.1, Shape.children, hne.symm]
    have hcountr : (a.children i).count right.number = 1 := by
      simp [Arena.children_of_node? h.1, Shape.children, hne]
    have hleft := ihl h.2.1 hnodupl htop hcountl (.listed htop h.2.1.parent? hcountl)
    have hright := ihr h.2.2 hnodupr htop hcountr (.listed htop h.2.2.parent? hcountr)
    intro j hj
    rcases List.mem_cons.1 hj with rfl | hj
    · exact htop
    · rcases List.mem_append.1 hj with hj | hj
      · exact hleft j hj
      · exact hright j hj

end NumberedTree

/-! ### Spines -/

/-- An operator binds at least as tightly as the frame around it; an open parenthesis stands
anywhere. -/
def Frame.BindsWithin : Frame → Frame → Prop
  | operator _ t _, outer => outer.priority ≤ t.priority
  | group _ _, _ => True

namespace Spine

/-- The nodes from the hole upwards. -/
def path : Spine → List NodeId
  | [] => [Arena.root]
  | f :: s => f.number :: path s

/-- Every operator binds at least as tightly as the frame around it. -/
def Ascending (s : Spine) : Prop :=
  s.IsChain Frame.BindsWithin

variable {a : Arena} {s : Spine} {child : Option NodeId} {c i : NodeId} {t : Token}

/-- A child that is not beside the hole is listed once by the node that the hole belongs to. -/
theorem count_shape (hc : c ∉ s.numbers) : (s.shape (some c)).children.count c = 1 := by
  cases s with
  | nil => simp [shape, Shape.children]
  | cons f s =>
    cases f with
    | group i t => simp [shape, Frame.shape, Shape.children]
    | operator i t left => simp [shape, Frame.shape, Shape.children, left_ne hc]

theorem StoredIn.placed (h : s.StoredIn a child) (hnodup : s.numbers.Nodup)
    (hchild : ∀ c ∈ child, c ∉ s.numbers) : ∀ j ∈ s.numbers, a.Placed j := by
  induction s generalizing child with
  | nil =>
    intro j hj
    obtain rfl := List.mem_singleton.1 hj
    exact .root (Arena.parent?_of_node? h)
  | cons f s ih =>
    obtain ⟨hnode, hside, hs⟩ := h
    obtain ⟨hnodups, hnodupf, hdisjoint⟩ := List.nodup_append.1 hnodup
    have hfs : f.number ∉ numbers s := by
      intro hmem
      exact hdisjoint _ hmem _ f.number_mem_numbers rfl
    have hplaced := ih hs hnodups (by rintro c ⟨⟩; exact hfs)
    -- The frame is what is in the hole of the spine around it.
    have hf : a.Placed f.number := by
      refine .listed (hplaced _ (cursor_mem_numbers s)) (Arena.parent?_of_node? hnode) ?_
      rw [Arena.children_of_node? hs.node?_cursor]
      exact count_shape hfs
    intro j hj
    rcases List.mem_append.1 hj with hj | hj
    · exact hplaced j hj
    · cases f with
      | group i t =>
        obtain rfl := List.mem_singleton.1 hj
        exact hf
      | operator i t left =>
        rcases List.mem_cons.1 hj with rfl | hj
        · exact hf
        · -- What is in the hole, if anything, is not the left operand once more.
          have hleft : left.StoredIn a i := hside
          refine hleft.placed (List.nodup_cons.1 hnodupf).2 hf ?_ j hj
          rw [show a.children i = _ from Arena.children_of_node? hnode, Frame.shape,
            Shape.children]
          cases child with
          | none => simp
          | some c => simp [(left_ne (hchild c rfl)).symm]

/-- The children of a spine's nodes are among them, but for what is in the hole. -/
theorem StoredIn.children_subset (h : s.StoredIn a child) (hi : i ∈ s.numbers) :
    a.children i ⊆ s.numbers ++ child.toList := by
  induction s generalizing child with
  | nil =>
    obtain rfl := List.mem_singleton.1 hi
    rw [Arena.children_of_node? h]
    exact List.subset_append_right _ _
  | cons f s ih =>
    obtain ⟨hnode, hside, hs⟩ := h
    rcases List.mem_append.1 hi with hi | hi
    · refine List.Subset.trans (ih hs hi) ?_
      simp [numbers, f.number_mem_numbers]
    · cases f with
      | group k t =>
        obtain rfl := List.mem_singleton.1 hi
        rw [show a.children i = _ from Arena.children_of_node? hnode]
        exact List.subset_append_right _ _
      | operator k t left =>
        rcases List.mem_cons.1 hi with rfl | hi
        · rw [show a.children i = _ from Arena.children_of_node? hnode]
          have hsub : child.toList ⊆ numbers s ++ i :: (left.numbers ++ child.toList) :=
            List.Subset.trans (List.subset_append_right (i :: left.numbers) _)
              (List.subset_append_right _ _)
          simp [Frame.shape, Shape.children, numbers, Frame.numbers, left.number_mem_numbers, hsub]
        · have hleft : left.StoredIn a k := hside
          intro j hj
          simp [numbers, Frame.numbers, hleft.children_subset hi hj]

/-- The way upwards from the hole. -/
theorem StoredIn.linksUp_iff (h : s.StoredIn a child) :
    Relation.ReflTransGen a.LinksUp s.cursor i ↔ i ∈ s.path := by
  induction s generalizing child with
  | nil =>
    have hroot : a.parent? Arena.root = none := Arena.parent?_of_node? h
    rw [path, List.mem_singleton, Relation.ReflTransGen.cases_head_iff]
    constructor
    · rintro (rfl | ⟨p, hp, -⟩)
      · rfl
      · cases hroot.symm.trans hp
    · rintro rfl
      exact .inl rfl
  | cons f s ih =>
    obtain ⟨hnode, -, hs⟩ := h
    have hlink : a.LinksUp f.number (cursor s) := Arena.parent?_of_node? hnode
    rw [path, List.mem_cons, ← ih hs, Relation.ReflTransGen.cases_head_iff]
    constructor
    · rintro (rfl | ⟨p, hp, hup⟩)
      · exact .inl rfl
      · obtain rfl := hlink.eq hp
        exact .inr hup
    · rintro (rfl | hup)
      · exact .inl rfl
      · exact .inr ⟨_, hlink, hup⟩

theorem path_subset (s : Spine) : s.path ⊆ s.numbers := by
  induction s with
  | nil => exact List.Subset.refl _
  | cons f s ih =>
    refine List.cons_subset.2 ⟨?_, fun j hj => ?_⟩
    · exact List.mem_append_right _ f.number_mem_numbers
    · exact List.mem_append_left _ (ih hj)

/-- The node that the hole belongs to is neither a term nor an order. -/
theorem shape_ne_leaf (s : Spine) (child : Option NodeId) (t : Token) :
    s.shape child ≠ .leaf t := by
  cases s with
  | nil => exact Shape.noConfusion
  | cons f s => cases f <;> exact Shape.noConfusion

theorem nodup_path (h : s.numbers.Nodup) : s.path.Nodup := by
  induction s with
  | nil => exact List.nodup_singleton _
  | cons f s ih =>
    obtain ⟨hnodup, -, hdisjoint⟩ := List.nodup_append.1 h
    refine List.nodup_cons.2 ⟨fun hmem => ?_, ih hnodup⟩
    exact hdisjoint _ (path_subset s hmem) _ f.number_mem_numbers rfl

/-- The open parentheses of a spine are on the way upwards. -/
theorem groups_sublist (s : Spine) : (s.groups.map Prod.fst).Sublist s.path := by
  induction s with
  | nil => exact List.nil_sublist _
  | cons f s ih =>
    cases f with
    | operator i t left => exact .cons _ ih
    | group i t => exact .cons_cons _ ih

theorem StoredIn.of_mem_groups (h : s.StoredIn a child) (hi : (i, t) ∈ s.groups) :
    a.isParenScope i ∧ a.token? i = some t := by
  induction s generalizing child with
  | nil => cases hi
  | cons f s ih =>
    obtain ⟨hnode, hside, hs⟩ := h
    cases f with
    | operator k u left => exact ih hs hi
    | group k u =>
      rcases List.mem_cons.1 hi with heq | hi
      · obtain ⟨rfl, rfl⟩ := Prod.mk.inj heq
        have hshape : a.shape? i = some (.group t child) := Arena.shape?_of_node? hnode
        have ht : t.kind = .lparen := hside
        simp [Arena.isParenScope, Arena.token?, hshape, Shape.isParenScope, ht, Shape.token?]
      · exact ih hs hi

/-- Where every operator binds at least as tightly as the one around it, the way down to the hole is
one through right operands, from the innermost open parenthesis or from the root. -/
theorem StoredIn.rightPath (h : s.StoredIn a child) (hascending : s.Ascending) :
    a.RightPath ((s.groups.head?.map Prod.fst).getD Arena.root) s.cursor := by
  induction s generalizing child with
  | nil => exact .top
  | cons f s ih =>
    obtain ⟨hnode, -, hs⟩ := h
    cases f with
    | group i t => exact .top
    | operator i t left =>
      have hshape : a.shape? i = some (.binary t t.priority (some left.number) child) :=
        Arena.shape?_of_node? hnode
      have habove := ih hs (List.IsChain.tail hascending)
      have hchildren : i ∈ a.children (cursor s) := by
        rw [Arena.children_of_node? hs.node?_cursor]
        cases s with
        | nil => simp [shape, Shape.children, Frame.number]
        | cons g s => cases g <;> simp [shape, Frame.shape, Shape.children, Frame.number]
      -- What is around the operator decides whether the way begins here.
      cases s with
      | nil => exact .first hchildren hshape
      | cons g s =>
        cases g with
        | group j u => exact .first hchildren hshape
        | operator j u left' =>
          have habove' : a.shape? j = some (.binary u u.priority (some left'.number) (some i)) :=
            Arena.shape?_of_node? hs.1
          exact .right habove habove' hshape (List.IsChain.rel_head? hascending rfl)

theorem root_mem_numbers (s : Spine) : Arena.root ∈ s.numbers := by
  induction s with
  | nil => exact List.mem_singleton_self _
  | cons f s ih => exact List.mem_append_left _ ih

end Spine

/-! ### What has been read -/

namespace Reading

variable {a : Arena} {r : Reading} {i : NodeId}

/-- A reading comes with its spine, and with what is in the hole. -/
theorem StoredIn.exists_spine (h : r.StoredIn a) :
    ∃ child, r.spine.StoredIn a child ∧ r.spine.numbers.Nodup := by
  cases r with
  | awaiting s =>
    have hawaits : a.Awaits s := h
    exact ⟨none, hawaits.spine, hawaits.nodup⟩
  | holding s x =>
    have hheld : a.Holds s x := h
    exact ⟨some x.number, hheld.spine, (List.nodup_append.1 hheld.nodup).1⟩

theorem StoredIn.placed (h : r.StoredIn a) : ∀ j ∈ r.numbers, a.Placed j := by
  cases r with
  | awaiting s =>
    have hawaits : a.Awaits s := h
    exact hawaits.spine.placed hawaits.nodup nofun
  | holding s x =>
    have hheld : a.Holds s x := h
    obtain ⟨hnodups, hnodupx, -⟩ := List.nodup_append.1 hheld.nodup
    have hs := hheld.spine.placed hnodups (by rintro c ⟨⟩; exact hheld.number_notMem)
    intro j hj
    rcases List.mem_append.1 hj with hj | hj
    · exact hs j hj
    · refine hheld.operand.placed hnodupx (hs _ s.cursor_mem_numbers) ?_ j hj
      rw [Arena.children_of_node? hheld.spine.node?_cursor]
      exact Spine.count_shape hheld.number_notMem

theorem StoredIn.children_subset (h : r.StoredIn a) (hi : i ∈ r.numbers) :
    a.children i ⊆ r.numbers := by
  cases r with
  | awaiting s =>
    have hawaits : a.Awaits s := h
    simpa [numbers] using hawaits.spine.children_subset hi
  | holding s x =>
    have hheld : a.Holds s x := h
    rcases List.mem_append.1 hi with hi | hi
    · refine List.Subset.trans (hheld.spine.children_subset hi) ?_
      simp [numbers, x.number_mem_numbers]
    · exact List.Subset.trans (hheld.operand.children_subset hi) (List.subset_append_right _ _)

theorem root_mem_numbers (r : Reading) : Arena.root ∈ r.numbers := by
  cases r with
  | awaiting s => exact s.root_mem_numbers
  | holding s x => exact List.mem_append_left _ s.root_mem_numbers

/-- The way from the hole upwards stays within what has been read. -/
theorem path_subset (r : Reading) : r.spine.path ⊆ r.numbers := by
  cases r with
  | awaiting s => exact s.path_subset
  | holding s x => exact List.Subset.trans s.path_subset (List.subset_append_left _ _)

/-- What is reached from the root is what has been read. -/
theorem StoredIn.reached_iff (h : r.StoredIn a) : a.Reached i ↔ i ∈ r.numbers := by
  constructor
  · intro hi
    induction hi with
    | refl => exact r.root_mem_numbers
    | tail _ hchild ih => exact h.children_subset ih hchild
  · intro hi
    exact (h.placed i hi).reached

/-- No way upwards leads back: it ends at the root, or there is none at all. -/
theorem StoredIn.acyclic (h : r.StoredIn a) (hisolates : a.Isolates r.numbers) (i : NodeId) :
    ¬ Relation.TransGen a.LinksUp i i := by
  by_cases hi : i ∈ r.numbers
  · have hplaced := h.placed i hi
    exact Arena.not_transGen_of_linksUp hplaced.parent?_root hplaced.linksUp_root
  · intro hcycle
    obtain ⟨p, hp, -⟩ := Relation.TransGen.head'_iff.1 hcycle
    cases (hisolates i hi).symm.trans hp

theorem StoredIn.rooted (h : r.StoredIn a) (hisolates : a.Isolates r.numbers) : a.Rooted where
  parent?_root := (h.placed _ r.root_mem_numbers).parent?_root
  acyclic := h.acyclic hisolates
  top_spec i := ⟨Arena.reflTransGen_topWithin _ _, Arena.parent?_top (h.acyclic hisolates) i⟩
  listed i hi hroot := by
    obtain ⟨p, hlink, hp, hcount⟩ := (h.placed i (h.reached_iff.1 hi)).exists_parent hroot
    exact ⟨p, hlink, hp.reached, hcount⟩

end Reading

end VersionRules
