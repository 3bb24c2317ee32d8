import VersionRules.Proofs.Except
import VersionRules.Proofs.Grammar.Acceptance
import VersionRules.Proofs.Tree.Placement

/-!
# What holds while a rule is read

Wherever the builder is within a list of tokens that obeys the table of neighbours, its arena is one
tree in which both kinds of links agree, and the cursor is at the end of a way down through right
operands. As long as `SORT_BY` has not been read, the open parentheses of that tree are those above
the cursor, and the nearest of them stands for the last one that has not been closed.

## Main definitions

* `IsLastOpen` — the last opening parenthesis that has not been closed, and the number of its node
* `Opened` — all that have not been closed
* `Builder.Sound` — a builder somewhere within a list of tokens, with what steps preserve
* `Builder.Invariant` — what holds of the builder itself

## Main results

* `Builder.Sound.step`, `Builder.Sound.run` — what one more token preserves, and what all others do
* `Builder.Sound.invariant` — what is preserved says what holds of the builder
* `parser_invariant` — the invariant behind every prefix, and the tree that is left in the end
-/

namespace VersionRules

variable {ts us vs : List Token} {l t : Token} {gs : List (NodeId × Token)} {b b' : Builder}
  {r r' : Reading} {s : Spine} {child : Option NodeId} {i new : NodeId} {a : Arena}

/-! ### Parentheses that have not been closed -/

/-- The last opening parenthesis that has not been closed, and the number that its node was given:
that of the next node, when all in front of it had been read. -/
def IsLastOpen (ts : List Token) (l : Token) (i : NodeId) : Prop :=
  ∃ us vs b, ts = us ++ l :: vs ∧ l.type = .lparen ∧ Balanced vs ∧
    us.foldlM Builder.step .empty = .ok b ∧ i = b.arena.nodes.size

/-- The opening parentheses that have not been closed, the innermost first, with the numbers of
their nodes. -/
inductive Opened : List (NodeId × Token) → List Token → Prop
  | nil {ts : List Token} (hts : Balanced ts) : Opened [] ts
  | cons {gs : List (NodeId × Token)} {us vs : List Token} {l : Token} {b : Builder}
      (hus : Opened gs us) (hb : us.foldlM Builder.step .empty = .ok b) (hl : l.type = .lparen)
      (hvs : Balanced vs) : Opened ((b.arena.nodes.size, l) :: gs) (us ++ l :: vs)

theorem Opened.append (h : Opened gs ts) (hus : Balanced us) : Opened gs (ts ++ us) := by
  cases h with
  | nil hts => exact .nil (hts.append hus)
  | cons hts hb hl hvs =>
    rw [List.append_assoc, List.cons_append]
    exact .cons hts hb hl (hvs.append hus)

/-- A closing parenthesis makes the innermost open one part of what stands behind the next. -/
theorem Opened.close {g : NodeId × Token} (h : Opened (g :: gs) ts) (ht : t.type = .rparen) :
    Opened gs (ts ++ [t]) := by
  cases h with
  | cons hus _ hl hvs =>
    rw [List.append_assoc, List.cons_append]
    exact hus.append (hvs.parens hl ht)

/-- Where all that is opened is closed, none is left open with what stands behind it balanced. -/
theorem Balanced.not_of_lparen (h : Balanced (us ++ l :: vs)) (hl : l.type = .lparen) :
    ¬ Balanced vs := by
  intro hvs
  have hle := h.closings_le us (List.prefix_append _ _)
  have heq := h.openings_eq
  have heq' := hvs.openings_eq
  simp only [openings_append, closings_append, openings_cons, closings_cons, hl, if_true,
    reduceCtorEq, if_false] at heq
  omega

/-- There is one last opening parenthesis that has not been closed. -/
theorem lparen_unique {us' vs' : List Token} {l' : Token}
    (heq : us ++ l :: vs = us' ++ l' :: vs') (hl : l.type = .lparen) (hl' : l'.type = .lparen)
    (hvs : Balanced vs) (hvs' : Balanced vs') : us = us' ∧ l = l' := by
  -- If one of the two stood further back, it would be left open in what is behind the other.
  rcases List.append_eq_append_iff.1 heq with ⟨ws, rfl, hws⟩ | ⟨ws, rfl, hws⟩
  · cases ws with
    | nil => exact ⟨(List.append_nil us).symm, (List.cons.inj hws).1⟩
    | cons w ws =>
      obtain ⟨rfl, rfl⟩ := List.cons.inj hws
      exact absurd hvs' (hvs.not_of_lparen hl')
  · cases ws with
    | nil => exact ⟨List.append_nil us', (List.cons.inj hws).1.symm⟩
    | cons w ws =>
      obtain ⟨rfl, rfl⟩ := List.cons.inj hws
      exact absurd hvs (hvs'.not_of_lparen hl)

theorem Opened.isLastOpen_iff (h : Opened gs ts) : IsLastOpen ts l i ↔ gs.head? = some (i, l) := by
  constructor
  · rintro ⟨us, vs, b, rfl, hl, hvs, hb, rfl⟩
    generalize hsplit : us ++ l :: vs = ts at h
    cases h with
    | nil hts =>
      subst hsplit
      exact absurd hvs (hts.not_of_lparen hl)
    | cons hus hb' hl' hvs' =>
      -- Both split the list at the same place, and one builder has read what is in front of it.
      obtain ⟨rfl, rfl⟩ := lparen_unique hsplit hl hl' hvs hvs'
      obtain rfl := Except.ok.inj (hb.symm.trans hb')
      rfl
  · intro hhead
    cases h with
    | nil => cases hhead
    | cons hus hb hl hvs =>
      obtain ⟨rfl, rfl⟩ := Prod.mk.inj (Option.some.inj hhead)
      exact ⟨_, _, _, rfl, hl, hvs, hb, rfl⟩

/-! ### Steps of a reading -/

/-- A step keeps the operators of the spine ascending: what binds tighter than a new one is
closed. -/
theorem Reading.ascending_step (h : r.step new t = some r') (hr : r.spine.Ascending) :
    r'.spine.Ascending := by
  cases Step.of_step h with
  | leaf => exact hr
  | lparen => exact List.IsChain.cons hr fun _ _ => trivial
  | @operator s x =>
    refine List.IsChain.cons (List.IsChain.suffix hr Spine.absorb_suffix) fun f hf => ?_
    -- What is left around the operator binds no tighter, or it would have been closed.
    have hle := s.priority_absorb_le (p := t.priority) (x := x)
    cases houter : (s.absorb t.priority x).1 with
    | nil => simp [houter] at hf
    | cons g outer =>
      rw [houter] at hf hle
      obtain rfl := Option.some.inj hf
      exact hle
  | @rparen s outer x inner i u ht hclose =>
    have hgroup : List.IsChain Frame.BindsWithin (s.absorb 0 x).1 :=
      List.IsChain.suffix hr Spine.absorb_suffix
    rw [hclose] at hgroup
    exact List.IsChain.tail hgroup
  | sortBy => exact List.isChain_singleton _

/-- Only parentheses open and close groups, as long as `SORT_BY` does not put them aside. -/
theorem Reading.groups_step (h : r.step new t = some r') (hsort : t.type ≠ .sortBy) :
    (t.type = .lparen ∧ r'.spine.groups = (new, t) :: r.spine.groups) ∨
      (t.type = .rparen ∧ ∃ g, r.spine.groups = g :: r'.spine.groups) ∨
        (t.type ≠ .lparen ∧ t.type ≠ .rparen ∧ r'.spine.groups = r.spine.groups) := by
  cases Step.of_step h with
  | leaf ht =>
    rcases ht with ⟨q, words, ht⟩ | ht <;> simp [Token.type, ht, TokenKind.type, spine]
  | lparen ht => exact .inl ⟨by simp [Token.type, ht, TokenKind.type], rfl⟩
  | operator ht =>
    rcases ht with ht | ⟨c, ht⟩ <;>
      simp [Token.type, ht, TokenKind.type, spine, Spine.groups, Spine.groups_absorb]
  | @rparen s outer x inner i u ht hclose =>
    -- Closing operators leaves the groups as they are, and the first of them is taken away.
    have hgroups := s.groups_absorb (p := 0) (x := x)
    rw [hclose] at hgroups
    exact .inr (.inl ⟨by simp [Token.type, ht, TokenKind.type], (i, u), hgroups.symm⟩)
  | sortBy ht => exact absurd (by simp [Token.type, ht, TokenKind.type]) hsort

/-! ### Steps of the builder -/

namespace Builder

/-- The builder is somewhere within a list of tokens. The operators of its spine ascend, and its
open parentheses are those of the list unless `SORT_BY` has put them aside. -/
structure Sound (b : Builder) (r : Reading) (ts : List Token) : Prop extends b.HasRead r ts where
  run_eq : ts.foldlM Builder.step .empty = .ok b
  ascending : r.spine.Ascending
  opened : (∀ t ∈ ts, t.type ≠ .sortBy) → Opened r.spine.groups ts

theorem sound_empty : Builder.empty.Sound (.awaiting []) [] :=
  ⟨hasRead_empty, rfl, List.isChain_nil, fun _ => .nil .nil⟩

/-- One more token preserves it. -/
theorem Sound.step (h : b.Sound r ts) (ht : Allows ts t) (hb : b.step t = .ok b') :
    ∃ r', b'.Sound r' (ts ++ [t]) := by
  rcases h.toHasRead.step ht with ⟨-, -, herror⟩ | ⟨b'', r', hr', hb', hread⟩
  · cases hb.symm.trans herror
  · obtain rfl := Except.ok.inj (hb'.symm.trans hb)
    refine ⟨r', hread, ?_, Reading.ascending_step hr' h.ascending, fun hsort => ?_⟩
    · rw [List.foldlM_append, h.run_eq]
      show [t].foldlM Builder.step b = _
      rw [List.foldlM_cons, hb]
      rfl
    · have hts := h.opened fun u hu => hsort u (List.mem_append_left _ hu)
      rcases Reading.groups_step hr' (hsort t (by simp)) with
        ⟨htype, hgroups⟩ | ⟨htype, g, hgroups⟩ | ⟨hlparen, hrparen, hgroups⟩
      · rw [hgroups]
        exact .cons hts h.run_eq htype .nil
      · rw [hgroups] at hts
        exact hts.close htype
      · rw [hgroups]
        exact hts.append (Balanced.nil.cons hlparen hrparen)

/-- All other tokens preserve it, as far as they are read. -/
theorem Sound.run (h : b.Sound r ts) (hvs : checkNeighbours (ts ++ us ++ vs) = .ok ())
    (hb : us.foldlM Builder.step b = .ok b') : ∃ r', b'.Sound r' (ts ++ us) := by
  induction us generalizing b r ts with
  | nil =>
    obtain rfl := Except.ok.inj hb
    exact ⟨r, by rwa [List.append_nil]⟩
  | cons t us ih =>
    have happend : ts ++ t :: us = ts ++ [t] ++ us := by simp
    rw [List.foldlM_cons] at hb
    cases hstep : b.step t with
    | error e => simp [hstep, bind, Except.bind] at hb
    | ok b₁ =>
      rw [hstep] at hb
      have hts : checkNeighbours (ts ++ t :: (us ++ vs)) = .ok () := by simpa using hvs
      obtain ⟨r₁, h₁⟩ := h.step (allows_of_checkNeighbours hts) hstep
      rw [happend] at hvs ⊢
      exact ih h₁ hvs hb

end Builder

/-! ### Open parentheses in the arena -/

theorem Spine.Spells.length_groups (hs : s.Spells us) : s.groups.length = s.groupCount := by
  induction hs with
  | nil => rfl
  | group _ _ ih => simp [groups, groupCount, Frame.groupCount, ih]
  | operator _ _ hleft _ ih => simp [groups, groupCount, Frame.groupCount, hleft, ih]

theorem NumberedTree.StoredIn.isParenScope_eq_false {x : NumberedTree} {p : NodeId}
    (h : x.StoredIn a p) (hcount : x.groupCount = 0) (hi : i ∈ x.numbers) :
    a.isParenScope i = false := by
  rcases h.shape?_cases hcount hi with ⟨t, hshape⟩ | ⟨t, q, left, right, hshape⟩ <;>
    rw [Arena.isParenScope, hshape] <;> rfl

/-- What stands beside the hole has no open parenthesis in it, so all of them are on the spine. -/
theorem Spine.Spells.mem_groups (hs : s.Spells us) (h : s.StoredIn a child) (hi : i ∈ s.numbers)
    (hscope : a.isParenScope i) : i ∈ s.groups.map Prod.fst := by
  induction hs generalizing child with
  | nil =>
    have hshape : a.shape? Arena.root = some (.root child) := Arena.shape?_of_node? h
    obtain rfl := List.mem_singleton.1 hi
    simp [Arena.isParenScope, hshape, Shape.isParenScope] at hscope
  | @group s us k t hs ht ih =>
    rcases List.mem_append.1 hi with hi | hi
    · exact List.mem_cons_of_mem _ (ih h.2.2 hi)
    · obtain rfl := List.mem_singleton.1 hi
      exact List.mem_cons_self ..
  | @operator s us vs k op left hs hvs hleft hop ih =>
    obtain ⟨hnode, hside, hs⟩ := h
    -- The new nodes are the operator, and its left operand without any parenthesis.
    rcases List.mem_append.1 hi with hi | hi
    · exact ih hs hi
    · rcases List.mem_cons.1 hi with rfl | hi
      · have hshape : a.shape? i = some (.binary op op.priority (some left.number) child) :=
          Arena.shape?_of_node? hnode
        simp [Arena.isParenScope, hshape, Shape.isParenScope] at hscope
      · have hstored : left.StoredIn a k := hside
        rw [hstored.isParenScope_eq_false hleft hi] at hscope
        cases hscope

namespace Builder

/-- As long as `SORT_BY` has not been read, open parentheses are on the spine only. -/
theorem HasRead.exists_spells (h : b.HasRead r ts) (hsort : ∀ t ∈ ts, t.type ≠ .sortBy) :
    (∃ us, r.spine.Spells us) ∧ r.groupCount = r.spine.groupCount := by
  cases h.covers with
  | awaiting hs => exact ⟨⟨_, hs⟩, rfl⟩
  | holding hs _ hx => exact ⟨⟨_, hs⟩, by simp [Reading.groupCount, Reading.spine, hx]⟩
  | order ho =>
    -- An order opens no parenthesis, so that none is counted in the operand either.
    have heq := h.openings_eq
    simp only [openings_cons, closings_cons, ho, openings_nil, closings_nil, reduceCtorEq,
      if_false, Nat.zero_add] at heq
    exact ⟨⟨[], .nil⟩, heq.symm⟩
  | sorting _ ht => exact absurd ht (hsort _ (by simp))
  | sorted _ ht => exact absurd ht (hsort _ (by simp))

/-- As long as `SORT_BY` has not been read, the open parentheses in the arena are those of the
spine. -/
theorem HasRead.isParenScope_iff (h : b.HasRead r ts) (hsort : ∀ t ∈ ts, t.type ≠ .sortBy)
    (hi : i ∈ r.numbers) : b.arena.isParenScope i ↔ i ∈ r.spine.groups.map Prod.fst := by
  obtain ⟨⟨us, hspells⟩, hcount⟩ := h.exists_spells hsort
  obtain ⟨child, hspine, -⟩ := h.shows.stored.exists_spine
  constructor
  · intro hscope
    cases r with
    | awaiting s => exact hspells.mem_groups hspine hi hscope
    | holding s x =>
      have hheld : b.arena.Holds s x := h.shows.stored
      have hx : x.groupCount = 0 := Nat.add_eq_left.1 hcount
      rcases List.mem_append.1 hi with hi | hi
      · exact hspells.mem_groups hspine hi hscope
      · rw [hheld.operand.isParenScope_eq_false hx hi] at hscope
        cases hscope
  · intro hmem
    obtain ⟨⟨j, t⟩, hgroup, rfl⟩ := List.mem_map.1 hmem
    exact (hspine.of_mem_groups hgroup).1

/-- The open parentheses in the arena are as many as are counted, and they are those above the
cursor. -/
theorem HasRead.exists_scopes (h : b.HasRead r ts) (hsort : ∀ t ∈ ts, t.type ≠ .sortBy) :
    ∃ js : List NodeId, js.Nodup ∧ js.length = b.openParens ∧
      (∀ i, i ∈ js ↔ b.arena.Reached i ∧ b.arena.isParenScope i) ∧
      ∀ i, i ∈ js ↔ Relation.ReflTransGen b.arena.LinksUp b.cursor i ∧ b.arena.isParenScope i := by
  obtain ⟨⟨us, hspells⟩, hcount⟩ := h.exists_spells hsort
  obtain ⟨child, hspine, hnodup⟩ := h.shows.stored.exists_spine
  have hsub := Spine.groups_sublist r.spine
  refine ⟨r.spine.groups.map Prod.fst, (Spine.nodup_path hnodup).sublist hsub, ?_, fun i => ?_,
    fun i => ?_⟩
  · rw [List.length_map, hspells.length_groups, h.shows.openParens_eq, hcount]
  · rw [h.shows.stored.reached_iff]
    constructor
    · intro hi
      have hnumber := r.path_subset (hsub.subset hi)
      exact ⟨hnumber, (h.isParenScope_iff hsort hnumber).2 hi⟩
    · rintro ⟨hnumber, hscope⟩
      exact (h.isParenScope_iff hsort hnumber).1 hscope
  · rw [h.shows.cursor_eq, hspine.linksUp_iff]
    constructor
    · intro hi
      have hpath := hsub.subset hi
      exact ⟨hpath, (h.isParenScope_iff hsort (r.path_subset hpath)).2 hi⟩
    · rintro ⟨hpath, hscope⟩
      exact (h.isParenScope_iff hsort (r.path_subset hpath)).1 hscope

/-! ### The invariant -/

/-- What holds of a builder that has read a list of tokens. -/
structure Invariant (b : Builder) (ts : List Token) : Prop where
  /-- Both kinds of links agree, and no walk upwards goes on for ever. -/
  rooted : b.arena.Rooted
  /-- The walk upwards from the cursor ends at the root. -/
  top_cursor : b.arena.top b.cursor = Arena.root
  /-- The cursor is at the root, at an open parenthesis or at an operator. -/
  inner : ∃ shape, b.arena.shape? b.cursor = some shape ∧ ∀ t, shape ≠ .leaf t
  /-- The way down to the cursor, from the nearest open parenthesis above it or from the root. -/
  rightPath : b.arena.RightPath ((b.arena.enclosingScope? b.cursor).getD Arena.root) b.cursor
  /-- The open parentheses of the tree are as many as are counted, and they are those on the way
  from the cursor upwards. -/
  scopes : (∀ t ∈ ts, t.type ≠ .sortBy) →
    ∃ js : List NodeId, js.Nodup ∧ js.length = b.openParens ∧
      (∀ i, i ∈ js ↔ b.arena.Reached i ∧ b.arena.isParenScope i) ∧
      ∀ i, i ∈ js ↔ Relation.ReflTransGen b.arena.LinksUp b.cursor i ∧ b.arena.isParenScope i
  /-- The nearest open parenthesis is the last one that has not been closed. -/
  enclosingScope?_iff : (∀ t ∈ ts, t.type ≠ .sortBy) →
    ∀ i, b.arena.enclosingScope? b.cursor = some i ↔ ∃ l, IsLastOpen ts l i
  /-- The node of an open parenthesis has its token. -/
  token?_eq : (∀ t ∈ ts, t.type ≠ .sortBy) →
    ∀ l i, IsLastOpen ts l i → b.arena.token? i = some l

/-- What steps preserve says what holds of the builder. -/
theorem Sound.invariant (h : b.Sound r ts) : b.Invariant ts := by
  have hstored := h.shows.stored
  obtain ⟨child, hspine, hnodup⟩ := hstored.exists_spine
  have hcursor := h.shows.cursor_eq
  have henclosing : b.arena.enclosingScope? b.cursor = r.spine.groups.head?.map Prod.fst := by
    rw [hcursor]
    exact Arena.enclosingScope?_cursor hspine hnodup
  refine ⟨hstored.rooted h.shows.isolates, ?_, ?_, ?_, h.exists_scopes, ?_, ?_⟩
  · rw [hcursor]
    exact Arena.top_cursor hspine hnodup
  · refine ⟨r.spine.shape child, ?_, r.spine.shape_ne_leaf child⟩
    rw [hcursor, Arena.shape?_of_node? hspine.node?_cursor]
  · rw [henclosing, hcursor]
    exact hspine.rightPath h.ascending
  · intro hsort i
    simp [henclosing, (h.opened hsort).isLastOpen_iff]
  · intro hsort l i hlast
    have hhead := (h.opened hsort).isLastOpen_iff.1 hlast
    exact (hspine.of_mem_groups (List.mem_of_mem_head? hhead)).2

end Builder

/-! ### The finished tree -/

/-- What is reached in a finished tree: the root, terms and orders, and operators with both
operands. -/
theorem shape?_of_parse (h : parse ts = .ok a) (hi : a.Reached i) :
    (∃ child, a.shape? i = some (.root child)) ∨ (∃ t, a.shape? i = some (.leaf t)) ∨
      ∃ t priority left right, a.shape? i = some (.binary t priority (some left) (some right)) := by
  rcases holds_of_parse h with ⟨-, rfl⟩ | ⟨x, hheld, hcount⟩
  · have hempty : (Reading.awaiting []).StoredIn .empty := Builder.shows_empty.stored
    obtain rfl := List.mem_singleton.1 (hempty.reached_iff.1 hi)
    exact .inl ⟨none, rfl⟩
  · have hstored : (Reading.holding [] x).StoredIn a := hheld
    rcases List.mem_append.1 (hstored.reached_iff.1 hi) with hi | hi
    · obtain rfl := List.mem_singleton.1 hi
      exact .inl ⟨some x.number, Arena.shape?_of_node? hheld.spine⟩
    · exact .inr (hheld.operand.shape?_cases hcount hi)

/-- **The invariant of the parser.** Behind every prefix of a list of tokens that obeys the table of
neighbours, if it is read without an error, the invariant holds. When the whole list is accepted, no
open parenthesis is reached from the root, and no operator that lacks an operand. -/
theorem parser_invariant (hts : checkNeighbours ts = .ok ()) :
    (∀ us b, us <+: ts → us.foldlM Builder.step .empty = .ok b → b.Invariant us) ∧
      ∀ a, parse ts = .ok a → ∀ i, a.Reached i →
        a.isParenScope i = false ∧
          ∀ t priority left right, a.shape? i = some (.binary t priority left right) →
            left.isSome ∧ right.isSome := by
  constructor
  · rintro us b ⟨vs, rfl⟩ hb
    have hts' : checkNeighbours ([] ++ us ++ vs) = .ok () := hts
    obtain ⟨r, hsound⟩ := Builder.sound_empty.run hts' hb
    exact hsound.invariant
  · intro a ha i hi
    rcases shape?_of_parse ha hi with ⟨child, hshape⟩ | ⟨t, hshape⟩ | ⟨t, p, left, right, hshape⟩
    · simp [Arena.isParenScope, hshape, Shape.isParenScope]
    · simp [Arena.isParenScope, hshape, Shape.isParenScope]
    · refine ⟨by simp [Arena.isParenScope, hshape, Shape.isParenScope], ?_⟩
      intro t' p' left' right' heq
      obtain ⟨-, -, rfl, rfl⟩ := Shape.binary.inj (Option.some.inj (hshape.symm.trans heq))
      exact ⟨rfl, rfl⟩

/-- Within two parentheses of `BUILD:1 AND (BUILD:2 OR (BUILD:3))`, and behind it. -/
theorem parser_invariant_nested :
    ∃ (us vs : List Token) (b : Builder) (a : Arena), (us ++ vs).length = 9 ∧
      checkNeighbours (us ++ vs) = .ok () ∧ us.foldlM Builder.step .empty = .ok b ∧
      b.openParens = 2 ∧ b.arena.enclosingScope? b.cursor = some 6 ∧ b.Invariant us ∧
      parse (us ++ vs) = .ok a ∧ ∀ i, a.Reached i → a.isParenScope i = false := by
  let us : List Token := [⟨0, 7, .qualifier .build ["1"]⟩, ⟨8, 11, .logic .and⟩, ⟨12, 13, .lparen⟩,
    ⟨13, 20, .qualifier .build ["2"]⟩, ⟨21, 23, .logic .or⟩, ⟨24, 25, .lparen⟩]
  let vs : List Token := [⟨25, 32, .qualifier .build ["3"]⟩, ⟨32, 33, .rparen⟩, ⟨33, 34, .rparen⟩]
  have hts : checkNeighbours (us ++ vs) = .ok () := by decide
  obtain ⟨hread, hend⟩ := parser_invariant hts
  obtain ⟨b, hb⟩ := exists_eq_ok_of_isOk (x := us.foldlM Builder.step .empty) (by decide +kernel)
  obtain ⟨a, ha⟩ := exists_eq_ok_of_isOk (x := parse (us ++ vs)) (by decide +kernel)
  have hview : (us.foldlM Builder.step .empty).map
      (fun b => (b.openParens, b.arena.enclosingScope? b.cursor)) = .ok (2, some 6) := by
    decide +kernel
  rw [hb] at hview
  obtain ⟨hcount, hscope⟩ := Prod.mk.inj (Except.ok.inj hview)
  exact ⟨us, vs, b, a, rfl, hts, hb, hcount, hscope, hread us b (List.prefix_append us vs) hb, ha,
    fun i hi => (hend a ha i hi).1⟩

end VersionRules
