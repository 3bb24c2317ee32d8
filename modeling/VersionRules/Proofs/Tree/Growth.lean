import VersionRules.Proofs.Tree.Regrouping

/-!
# The growing tree as a spine

A growing tree is determined by its spine and the operand below it, if there is one. One more token
changes them in a way that needs neither links nor a cursor: a term becomes the operand, a
parenthesis or an operator becomes the innermost frame, and what binds tighter than an operator is
closed before. The arena follows every such step.

## Main definitions

* `Reading` — a spine that awaits an operand, or that holds one
* `Reading.step`, `Reading.Step` — what one more token does to it, and the ways to do so
* `Builder.Shows` — the arena, the cursor and the count of open parentheses are those of a reading,
  and nothing else in the arena has a link upwards

## Main results

* `Builder.Shows.step` — a step of the reading is a step of the builder
* `Builder.Shows.step_eq_error` — a closing parenthesis that closes nothing is an error
-/

namespace VersionRules

/-- What has been read of a rule: the spine of its tree, and the operand in the hole if there is
one. -/
inductive Reading
  | awaiting (spine : Spine)
  | holding (spine : Spine) (operand : NumberedTree)

namespace Reading

/-- The spine of a reading. -/
def spine : Reading → Spine
  | awaiting s | holding s _ => s

/-- How many parentheses are open. -/
def groupCount : Reading → Nat
  | awaiting s => s.groupCount
  | holding s x => s.groupCount + x.groupCount

/-- The numbers of the nodes that stand for what has been read, the root included. -/
def numbers : Reading → List NodeId
  | awaiting s => s.numbers
  | holding s x => s.numbers ++ x.numbers

/-- The arena holds what has been read. -/
def StoredIn (a : Arena) : Reading → Prop
  | awaiting s => a.Awaits s
  | holding s x => a.Holds s x

/-- What one more token, with `new` for the number of its node, makes of a reading. There is no
place for a term behind an operand, nor for an operator without one, nor for a closing parenthesis
without an open one. -/
def step (new : NodeId) (t : Token) : Reading → Option Reading
  | awaiting s =>
    match t.kind with
    | .qualifier _ _ | .order => some (holding s (.leaf new t))
    | .lparen => some (awaiting (.group new t :: s))
    | _ => none
  | holding s x =>
    match t.kind with
    | .comma | .logic _ =>
      let (outer, left) := s.absorb t.priority x
      some (awaiting (.operator new t left :: outer))
    | .rparen =>
      match s.absorb 0 x with
      | (.group _ _ :: outer, inner) => some (holding outer inner)
      | _ => none
    | .sortBy => some (awaiting [.operator new t (s.plug x)])
    | _ => none

variable {s outer : Spine} {x inner : NumberedTree} {new i : NodeId} {t u : Token} {r r' : Reading}

theorem step_awaiting_of_leaf (ht : t.type = .qualifier ∨ t.type = .order) :
    (awaiting s).step new t = some (holding s (.leaf new t)) := by
  obtain ⟨start, stop, kind⟩ := t
  rcases ht with ht | ht <;> cases kind <;> first | rfl | cases ht

theorem step_awaiting_of_lparen (ht : t.type = .lparen) :
    (awaiting s).step new t = some (awaiting (.group new t :: s)) := by
  obtain ⟨start, stop, kind⟩ := t
  cases kind <;> first | rfl | cases ht

theorem step_holding_of_joins (ht : t.type = .logic ∨ t.type = .comma) :
    (holding s x).step new t = some
      (awaiting (.operator new t (s.absorb t.priority x).2 :: (s.absorb t.priority x).1)) := by
  obtain ⟨start, stop, kind⟩ := t
  rcases ht with ht | ht <;> cases kind <;> first | rfl | cases ht

theorem step_holding_of_rparen (ht : t.type = .rparen)
    (hclose : s.absorb 0 x = (.group i u :: outer, inner)) :
    (holding s x).step new t = some (holding outer inner) := by
  obtain ⟨start, stop, kind⟩ := t
  cases kind with
  | rparen => simp only [step, hclose]
  | _ => cases ht

theorem step_holding_of_sortBy (ht : t.type = .sortBy) :
    (holding s x).step new t = some (awaiting [.operator new t (s.plug x)]) := by
  obtain ⟨start, stop, kind⟩ := t
  cases kind <;> first | rfl | cases ht

/-- What one more token can do to a reading. -/
inductive Step (new : NodeId) (t : Token) : Reading → Reading → Prop
  | leaf {s : Spine} (ht : (∃ q words, t.kind = .qualifier q words) ∨ t.kind = .order) :
      Step new t (awaiting s) (holding s (.leaf new t))
  | lparen {s : Spine} (ht : t.kind = .lparen) :
      Step new t (awaiting s) (awaiting (.group new t :: s))
  | operator {s : Spine} {x : NumberedTree} (ht : t.kind = .comma ∨ ∃ c, t.kind = .logic c) :
      Step new t (holding s x)
        (awaiting (.operator new t (s.absorb t.priority x).2 :: (s.absorb t.priority x).1))
  | rparen {s outer : Spine} {x inner : NumberedTree} {i : NodeId} {u : Token}
      (ht : t.kind = .rparen) (hclose : s.absorb 0 x = (.group i u :: outer, inner)) :
      Step new t (holding s x) (holding outer inner)
  | sortBy {s : Spine} {x : NumberedTree} (ht : t.kind = .sortBy) :
      Step new t (holding s x) (awaiting [.operator new t (s.plug x)])

theorem Step.of_step (h : r.step new t = some r') : Step new t r r' := by
  cases r with
  | awaiting s =>
    simp only [step] at h
    split at h
    case h_4 => cases h
    all_goals
      next ht =>
        obtain rfl := Option.some.inj h
        first | exact .leaf (.inl ⟨_, _, ht⟩) | exact .leaf (.inr ht) | exact .lparen ht
  | holding s x =>
    simp only [step] at h
    split at h
    · next ht =>
      obtain rfl := Option.some.inj h
      exact .operator (.inl ht)
    · next c ht =>
      obtain rfl := Option.some.inj h
      exact .operator (.inr ⟨c, ht⟩)
    · next ht =>
      split at h
      · next hclose =>
        obtain rfl := Option.some.inj h
        exact .rparen ht hclose
      · cases h
    · next ht =>
      obtain rfl := Option.some.inj h
      exact .sortBy ht
    · cases h

end Reading

namespace Builder

/-- The builder is where the reading is. -/
structure Shows (b : Builder) (r : Reading) : Prop where
  stored : r.StoredIn b.arena
  cursor_eq : b.cursor = r.spine.cursor
  openParens_eq : b.openParens = r.groupCount
  isolates : b.arena.Isolates r.numbers

variable {b : Builder} {s : Spine} {x : NumberedTree} {r r' : Reading} {t : Token}

theorem shows_empty : Builder.empty.Shows (.awaiting []) :=
  ⟨⟨rfl, List.nodup_singleton _⟩, rfl, rfl, Arena.isolates_empty⟩

/-- A term or an order becomes the operand. -/
theorem Shows.step_leaf (h : b.Shows (.awaiting s))
    (ht : (∃ q words, t.kind = .qualifier q words) ∨ t.kind = .order) :
    ∃ b', b.step t = .ok b' ∧ b'.Shows (.holding s (.leaf b.arena.nodes.size t)) := by
  refine ⟨{ b with arena := (b.arena.push (.leaf t)).1.attach b.cursor b.arena.nodes.size }, ?_,
    ⟨?_, h.cursor_eq, h.openParens_eq, h.isolates.attach_push _ _⟩⟩
  · rcases ht with ⟨q, words, ht⟩ | ht <;> rw [Builder.step, ht] <;> rfl
  · rw [h.cursor_eq]
    exact Arena.Awaits.attach_leaf h.stored t

/-- An open parenthesis becomes the innermost frame. -/
theorem Shows.step_lparen (h : b.Shows (.awaiting s)) (ht : t.kind = .lparen) :
    ∃ b', b.step t = .ok b' ∧ b'.Shows (.awaiting (.group b.arena.nodes.size t :: s)) := by
  refine ⟨⟨(b.arena.push (.group t none)).1.attach b.cursor b.arena.nodes.size,
    b.arena.nodes.size, b.openParens + 1⟩, ?_, ⟨?_, rfl, ?_, h.isolates.attach_push _ _⟩⟩
  · rw [Builder.step, ht]
    rfl
  · rw [h.cursor_eq]
    exact Arena.Awaits.attach_group h.stored ht
  · exact congrArg (· + 1) h.openParens_eq

/-- A closing parenthesis closes the innermost open one. -/
theorem Shows.step_rparen {outer : Spine} {inner : NumberedTree} {i : NodeId} {u : Token}
    (h : b.Shows (.holding s x)) (ht : t.kind = .rparen)
    (hclose : s.absorb 0 x = (.group i u :: outer, inner)) :
    ∃ b', b.step t = .ok b' ∧ b'.Shows (.holding outer inner) := by
  have hheld : b.arena.Holds s x := h.stored
  have hgroup : b.arena.Holds (.group i u :: outer) inner := by
    simpa only [hclose] using hheld.absorb 0
  have hisolates : b.arena.Isolates (Spine.numbers (.group i u :: outer) ++ inner.numbers) := by
    have := s.numbers_absorb (p := 0) (x := x)
    simp only [hclose] at this
    rw [this]
    exact h.isolates
  have hnode : b.arena.node? i = some ⟨.group u (some inner.number), some outer.cursor⟩ :=
    hgroup.spine.1
  -- Closing operators loses no parenthesis, so the one of the frame is counted on both sides.
  have hcount : b.openParens = outer.groupCount + inner.groupCount + 1 := by
    have := s.groupCount_absorb (p := 0) (x := x)
    simp only [hclose, Spine.groupCount, Frame.groupCount] at this
    rw [h.openParens_eq, Reading.groupCount]
    omega
  have hscope : b.arena.enclosingScope? b.cursor = some i := by
    have hgroups : Spine.groups (.group i u :: outer) = s.groups := by
      rw [← s.groups_absorb (p := 0) (x := x), hclose]
    rw [h.cursor_eq, Reading.spine,
      Arena.enclosingScope?_cursor hheld.spine (List.nodup_append.1 hheld.nodup).1, ← hgroups]
    rfl
  refine ⟨⟨b.arena.replaceChild outer.cursor i inner.number, outer.cursor, b.openParens - 1⟩,
    ?_, ⟨hgroup.replaceChild, rfl, ?_, hgroup.isolates_replaceChild hisolates⟩⟩
  · have hparent : b.arena.parent? i = some outer.cursor := Arena.parent?_of_node? hnode
    have hchildren : (b.arena.children i).head? = some inner.number := by
      rw [Arena.children_of_node? hnode]
      rfl
    simp only [Builder.step, ht, closeScope, hscope, hparent, hchildren]
    rw [if_neg (by omega)]
  · exact hcount ▸ rfl

/-- `SORT_BY` takes all that has been read for its left operand. -/
theorem Shows.step_sortBy (h : b.Shows (.holding s x)) (ht : t.kind = .sortBy) :
    ∃ b', b.step t = .ok b' ∧
      b'.Shows (.awaiting [.operator b.arena.nodes.size t (s.plug x)]) := by
  have hheld : b.arena.Holds s x := h.stored
  have hpriority : t.priority = 3 := by rw [Token.priority, ht]; rfl
  have hpushed := hheld.push (.binary t 3 none none)
  have htop : (b.arena.push (.binary t 3 none none)).1.top b.cursor = Arena.root := by
    rw [h.cursor_eq]
    exact Arena.top_cursor hpushed.spine (List.nodup_append.1 hpushed.nodup).1
  refine ⟨⟨(b.arena.push (.binary t 3 none none)).1.pushDown
    ((b.arena.push (.binary t 3 none none)).1.top b.cursor) b.arena.nodes.size,
    b.arena.nodes.size, b.openParens⟩, ?_, ⟨?_, rfl, ?_, ?_⟩⟩
  · simp only [Builder.step, ht, Arena.newBinary, TokenKind.priority?]
    rfl
  · -- Below the root there is only one slot, and all that has been read is the operand in it.
    rw [htop]
    apply hpushed.plug.pushDown rfl hheld.plug.size_notMem
    rw [Arena.node?_push_size, hpriority]
  · rw [h.openParens_eq, Reading.groupCount, Reading.groupCount, Spine.groupCount,
      Spine.groupCount, Frame.groupCount, Spine.groupCount_plug, Nat.zero_add]
  · rw [htop]
    apply hpushed.plug.isolates_pushDown rfl
    rw [Spine.numbers, List.singleton_append, Spine.numbers_plug]
    exact h.isolates.push _

theorem newBinary_eq {a : Arena} {p : Nat} (hp : t.kind.priority? = some p) :
    a.newBinary t = .ok (a.push (.binary t t.priority none none)) := by
  simp only [Arena.newBinary, Token.priority, hp, Option.getD_some]

/-- An operator closes what binds tighter and becomes the innermost frame. -/
theorem Shows.addOperator {p : Nat} (h : b.Shows (.holding s x))
    (hp : t.kind.priority? = some p) :
    ∃ b', b.addOperator t = .ok b' ∧ b'.Shows
      (.awaiting (.operator b.arena.nodes.size t (s.absorb t.priority x).2 ::
        (s.absorb t.priority x).1)) := by
  have hheld : b.arena.Holds s x := h.stored
  let a := (b.arena.push (.binary t t.priority none none)).1
  have hpushed : a.Holds s x := hheld.push _
  have hnode : a.node? b.arena.nodes.size = some ⟨.binary t t.priority none none, none⟩ :=
    Arena.node?_push_size _ _
  have hcursor : b.cursor = s.cursor := h.cursor_eq
  have hshape : a.shape? s.cursor = some (s.shape (some x.number)) :=
    Arena.shape?_of_node? hpushed.spine.node?_cursor
  have hcount : b.openParens =
      (s.absorb t.priority x).1.groupCount + (s.absorb t.priority x).2.groupCount := by
    rw [h.openParens_eq, Spine.groupCount_absorb, Reading.groupCount]
  have hisolates : a.Isolates
      ((s.absorb t.priority x).1.numbers ++ (s.absorb t.priority x).2.numbers) := by
    rw [Spine.numbers_absorb]
    exact h.isolates.push _
  have hgetD : t.kind.priority?.getD 0 = t.priority := rfl
  simp only [Builder.addOperator, newBinary_eq hp, bind, Except.bind, hcursor, hshape, hgetD, a]
  -- The operator has three places: below a node with one slot, above all operators that bind
  -- tighter, and below an operator that binds no tighter.
  rcases s with _ | ⟨⟨i, u, left⟩ | ⟨i, u⟩, s⟩
  · exact ⟨_, rfl, hpushed.pushDown rfl hheld.size_notMem hnode, rfl, hcount,
      hpushed.isolates_pushDown rfl hisolates⟩
  · by_cases hlt : t.priority < u.priority
    · have hwrapped : a.Holds s (.binary i u left x) := (Arena.holds_cons_iff.1 hpushed).2
      have habsorb : Spine.absorb t.priority (.operator i u left :: s) x =
          Spine.absorb t.priority s (.binary i u left x) := if_pos hlt
      have hclimb : climb a t.priority i =
          (Spine.absorb t.priority s (.binary i u left x)).2.number := hwrapped.climb_eq
      have hclosed := hwrapped.absorb t.priority
      have hfresh := ((Arena.holds_cons_iff.1 hheld).2.absorb t.priority).size_notMem
      -- The operator under the cursor is closed, and with it all that the climb passes.
      simp only [habsorb] at hcount hisolates ⊢
      simp only [Spine.shape, Spine.cursor, Frame.shape, Frame.number, Nat.not_le.2 hlt, if_false]
      rw [hclimb, hclosed.operand.parent?]
      exact ⟨_, rfl, hclosed.replaceChild_set hfresh hnode, rfl, hcount,
        hisolates.replaceChild_set _⟩
    · -- Nothing is closed, and the new operator takes the operand from the one under the cursor.
      have habsorb : Spine.absorb t.priority (.operator i u left :: s) x =
          (.operator i u left :: s, x) := if_neg hlt
      simp only [habsorb] at hcount hisolates ⊢
      simp only [Spine.shape, Frame.shape, Nat.not_lt.1 hlt, if_true]
      exact ⟨_, rfl, hpushed.replaceChild_set hheld.size_notMem hnode, rfl, hcount,
        hisolates.replaceChild_set _⟩
  · exact ⟨_, rfl, hpushed.pushDown rfl hheld.size_notMem hnode, rfl, hcount,
      hpushed.isolates_pushDown rfl hisolates⟩

/-- The builder follows every step of a reading. -/
theorem Shows.step (h : b.Shows r) (hstep : r.step b.arena.nodes.size t = some r') :
    ∃ b', b.step t = .ok b' ∧ b'.Shows r' := by
  cases Reading.Step.of_step hstep with
  | leaf ht => exact h.step_leaf ht
  | lparen ht => exact h.step_lparen ht
  | operator ht =>
    obtain ⟨p, hp⟩ : ∃ p, t.kind.priority? = some p := by
      rcases ht with ht | ⟨c, ht⟩
      · exact ⟨1, by rw [ht]; rfl⟩
      · cases c with
        | and => exact ⟨2, by rw [ht]; rfl⟩
        | or => exact ⟨1, by rw [ht]; rfl⟩
    have hadd : b.step t = b.addOperator t := by
      rcases ht with ht | ⟨c, ht⟩ <;> rw [Builder.step, ht]
    rw [hadd]
    exact h.addOperator hp
  | rparen ht hclose => exact h.step_rparen ht hclose
  | sortBy ht => exact h.step_sortBy ht

/-- A closing parenthesis that closes nothing is an error. -/
theorem Shows.step_eq_error (h : b.Shows r) (hcount : r.groupCount = 0) (ht : t.type = .rparen) :
    b.step t = .error (.atToken .strayParen t) := by
  obtain ⟨start, stop, kind⟩ := t
  cases kind with
  | rparen =>
    rw [Builder.step, closeScope]
    exact if_pos (h.openParens_eq.trans hcount)
  | _ => cases ht

end Builder

end VersionRules
