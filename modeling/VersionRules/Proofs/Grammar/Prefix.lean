import VersionRules.Proofs.Grammar.Phrase
import VersionRules.Proofs.Tree.Growth

/-!
# Prefixes of rules

Whatever obeys the table of neighbours and closes no parenthesis too many is a prefix of a rule.
Its reading says which one: each frame of the spine stands for an open parenthesis, or for a
complete expression and the operator behind it, and the operand stands for a complete expression.

## Main definitions

* `Spine.Spells`, `Reading.Covers` — the tokens that a spine and a reading stand for
* `Allows` — what the table of neighbours says of a token behind a prefix

## Main results

* `Reading.Covers.step` — a token that the table allows has a place, unless it closes nothing
* `Reading.Covers.isRule` — a reading that can end without an open parenthesis stands for a rule
-/

namespace VersionRules

variable {ts us vs : List Token} {t op : Token} {s : Spine} {x : NumberedTree} {r r' : Reading}
  {new : NodeId} {p : Nat}

/-- The tokens that a spine stands for. -/
inductive Spine.Spells : Spine → List Token → Prop
  | nil : Spells [] []
  | group {s : Spine} {us : List Token} {i : NodeId} {t : Token} (hs : Spells s us)
      (ht : t.type = .lparen) : Spells (.group i t :: s) (us ++ [t])
  | operator {s : Spine} {us vs : List Token} {i : NodeId} {op : Token} {left : NumberedTree}
      (hs : Spells s us) (hvs : Phrase .expr vs) (hleft : left.groupCount = 0) (hop : op.Joins) :
      Spells (.operator i op left :: s) (us ++ (vs ++ [op]))

/-- The tokens that a reading stands for. Behind `SORT_BY` they are a rule as far as no parenthesis
has been left open. -/
inductive Reading.Covers : Reading → List Token → Prop
  | awaiting {s : Spine} {us : List Token} (hs : s.Spells us) : Covers (.awaiting s) us
  | holding {s : Spine} {us vs : List Token} {x : NumberedTree} (hs : s.Spells us)
      (hvs : Phrase .expr vs) (hx : x.groupCount = 0) : Covers (.holding s x) (us ++ vs)
  | order {x : NumberedTree} {o : Token} (ho : o.type = .order) : Covers (.holding [] x) [o]
  | sorting {i : NodeId} {t : Token} {left : NumberedTree} {ts : List Token}
      (hts : left.groupCount = 0 → Phrase .expr ts) (ht : t.type = .sortBy) :
      Covers (.awaiting [.operator i t left]) (ts ++ [t])
  | sorted {i : NodeId} {t o : Token} {left x : NumberedTree} {ts : List Token}
      (hts : left.groupCount = 0 → Phrase .expr ts) (ht : t.type = .sortBy) (ho : o.type = .order) :
      Covers (.holding [.operator i t left] x) (ts ++ [t, o])

/-! ### Closing frames -/

theorem Token.Joins.priority_pos (hop : op.Joins) : 0 < op.priority := by
  obtain ⟨start, stop, kind⟩ := op
  rcases hop with hop | hop <;> cases kind <;>
    simp_all [Token.type, TokenKind.type, Token.priority, TokenKind.priority?]
  next c => cases c <;> simp

/-- What is closed stands for an expression again. -/
theorem Spine.Spells.absorb (hs : s.Spells us) (hvs : Phrase .expr vs) (hx : x.groupCount = 0) :
    ∃ us' vs', us ++ vs = us' ++ vs' ∧ (s.absorb p x).1.Spells us' ∧ Phrase .expr vs' ∧
      (s.absorb p x).2.groupCount = 0 := by
  induction hs generalizing x vs with
  | nil => exact ⟨[], vs, rfl, .nil, hvs, hx⟩
  | @group s us i t hs ht =>
    exact ⟨us ++ [t], vs, rfl, .group hs ht, hvs, hx⟩
  | @operator s us ls i op left hs hls hleft hop ih =>
    by_cases h : p < op.priority
    · -- The closed frame and its operand are one expression, which the next frame may close in
      -- turn.
      obtain ⟨us', vs', heq, hspells, hvs', hcount⟩ :=
        ih (x := .binary i op left x) (hls.join_expr hop hvs) (by simp [NumberedTree.groupCount, *])
      rw [Spine.absorb_cons_of_lt h]
      exact ⟨us', vs', by simpa using heq, hspells, hvs', hcount⟩
    · rw [Spine.absorb_of_priority_le (Nat.not_lt.1 h)]
      exact ⟨_, vs, rfl, .operator hs hls hleft hop, hvs, hx⟩

/-- A closing parenthesis finds the innermost open one, and makes a term of what is in between. -/
theorem Spine.Spells.close (hs : s.Spells us) (hvs : Phrase .expr vs) (hx : x.groupCount = 0)
    (hopen : 0 < s.groupCount) (ht : t.type = .rparen) :
    ∃ i u outer inner us' vs', s.absorb 0 x = (.group i u :: outer, inner) ∧
      us ++ vs ++ [t] = us' ++ vs' ∧ Spells outer us' ∧ Phrase .expr vs' ∧
        inner.groupCount = 0 := by
  induction hs generalizing x vs with
  | nil => exact absurd hopen (Nat.lt_irrefl 0)
  | @group s us i u hs hu =>
    exact ⟨i, u, s, x, us, u :: (vs ++ [t]), rfl, by simp, hs, .single (.parens hu hvs ht), hx⟩
  | @operator s us ls i op left hs hls hleft hop ih =>
    have hopen' : 0 < s.groupCount := by
      simpa [Spine.groupCount, Frame.groupCount, hleft] using hopen
    obtain ⟨j, u, outer, inner, us', vs', hclose, heq, hspells, hvs', hinner⟩ :=
      ih (x := .binary i op left x) (hls.join_expr hop hvs) (by simp [NumberedTree.groupCount, *])
        hopen'
    rw [Spine.absorb_cons_of_lt hop.priority_pos]
    exact ⟨j, u, outer, inner, us', vs', hclose, by simpa using heq, hspells, hvs', hinner⟩

/-- Without an open parenthesis, all that was read is an expression. -/
theorem Spine.Spells.phrase (hs : s.Spells us) (hvs : Phrase .expr vs)
    (hcount : s.groupCount = 0) : Phrase .expr (us ++ vs) := by
  induction hs generalizing vs with
  | nil => exact hvs
  | group => simp [Spine.groupCount, Frame.groupCount] at hcount
  | operator _ hls _ hop ih =>
    simpa using ih (hls.join_expr hop hvs) (Nat.add_eq_zero_iff.1 hcount).1

/-! ### One more token -/

/-- What the table of neighbours says of a token behind a prefix. -/
def Allows (ts : List Token) (t : Token) : Prop :=
  match ts.getLast? with
  | none => t.type.canStart
  | some u => u.Precedes t

theorem allows_iff_precedes {u : Token} (h : ts.getLast? = some u) :
    Allows ts t ↔ u.Precedes t := by
  rw [Allows, h]

theorem allows_concat {u : Token} : Allows (ts ++ [u]) t ↔ u.Precedes t :=
  allows_iff_precedes List.getLast?_concat

theorem allows_of_checkNeighbours (h : checkNeighbours (ts ++ t :: us) = .ok ()) :
    Allows ts t := by
  obtain ⟨hstart, hchain, -⟩ := checkNeighbours_eq_ok_iff.1 h
  unfold Allows
  cases hlast : ts.getLast? with
  | none =>
    obtain rfl := List.getLast?_eq_none_iff.1 hlast
    exact hstart t rfl
  | some u => exact (List.isChain_append.1 hchain).2.2 u hlast t rfl

/-- A spine awaits a term or an open parenthesis, and an order if nothing has been read. -/
theorem Spine.Spells.type_of_allows (hs : s.Spells us) (ht : Allows us t) :
    (t.type = .qualifier ∨ t.type = .lparen) ∨ s = [] ∧ us = [] ∧ t.type = .order := by
  cases hs with
  | nil =>
    replace ht : t.type.canStart = true := ht
    cases h : t.type <;> simp_all [TokenType.canStart]
  | @group s us i u hs hu =>
    rw [allows_concat, Token.Precedes, hu] at ht
    cases h : t.type <;> simp_all [TokenType.canPrecede]
  | @operator s us vs i op left hs hvs hleft hop =>
    rw [← List.append_assoc, allows_concat, Token.Precedes] at ht
    rcases hop with hop | hop <;> cases h : t.type <;> simp_all [TokenType.canPrecede]

/-- Behind an expression stands what joins or ends it. -/
theorem Phrase.type_of_allows {k : PhraseKind} (hvs : Phrase k vs) (ht : Allows (us ++ vs) t) :
    t.Joins ∨ t.type = .rparen ∨ t.type = .sortBy := by
  obtain ⟨last, hlast, htype⟩ := hvs.getLast?_type
  rw [allows_iff_precedes (by rw [List.getLast?_append, hlast, Option.some_or]),
    Token.Precedes] at ht
  rcases htype with htype | htype <;> cases h : t.type <;>
    simp_all [TokenType.canPrecede, Token.Joins]

/-- A token that the table allows has a place in the reading, unless it closes nothing. -/
theorem Reading.Covers.step (h : r.Covers ts) (new : NodeId) (ht : Allows ts t)
    (hcount : t.type = .rparen → 0 < r.groupCount) :
    ∃ r', r.step new t = some r' ∧ r'.Covers (ts ++ [t]) := by
  cases h with
  | awaiting hs =>
    rcases hs.type_of_allows ht with (htype | htype) | ⟨rfl, rfl, htype⟩
    · exact ⟨_, step_awaiting_of_leaf (.inl htype), .holding hs (.single (.qualifier htype)) rfl⟩
    · exact ⟨_, step_awaiting_of_lparen htype, .awaiting (.group hs htype)⟩
    · exact ⟨_, step_awaiting_of_leaf (.inr htype), .order htype⟩
  | @holding s us vs x hs hvs hx =>
    rcases hvs.type_of_allows ht with htype | htype | htype
    · obtain ⟨us', vs', heq, hspells, hvs', hleft⟩ := hs.absorb (p := t.priority) hvs hx
      refine ⟨_, step_holding_of_joins htype, ?_⟩
      rw [heq, List.append_assoc]
      exact .awaiting (.operator hspells hvs' hleft htype)
    · have hopen : 0 < s.groupCount := by simpa [groupCount, hx] using hcount htype
      obtain ⟨i, u, outer, inner, us', vs', hclose, heq, hspells, hvs', hinner⟩ :=
        hs.close hvs hx hopen htype
      refine ⟨_, step_holding_of_rparen htype hclose, ?_⟩
      rw [heq]
      exact .holding hspells hvs' hinner
    · refine ⟨_, step_holding_of_sortBy htype, .sorting (fun hplug => ?_) htype⟩
      rw [Spine.groupCount_plug, hx] at hplug
      exact hs.phrase hvs hplug
  | @order x o ho =>
    -- Nothing can follow an order, here or behind `SORT_BY`.
    rw [allows_iff_precedes (u := o) rfl, Token.Precedes, ho] at ht
    simp [TokenType.canPrecede] at ht
  | @sorting i u left ts hts hu =>
    rw [allows_concat, Token.Precedes, hu] at ht
    have htype : t.type = .order := by
      cases h : t.type <;> simp_all [TokenType.canPrecede]
    refine ⟨_, step_awaiting_of_leaf (.inr htype), ?_⟩
    rw [List.append_assoc]
    exact .sorted hts hu htype
  | @sorted i u o left x ts hts hu ho =>
    rw [allows_iff_precedes (u := o) (by rw [List.getLast?_append]; rfl), Token.Precedes, ho] at ht
    simp [TokenType.canPrecede] at ht

/-- One token opens or closes at most one parenthesis. -/
theorem Reading.groupCount_step (h : r.step new t = some r') :
    r'.groupCount + closings [t] = r.groupCount + openings [t] := by
  cases Step.of_step h with
  | leaf ht =>
    rcases ht with ⟨q, words, ht⟩ | ht <;>
      simp [openings, closings, Token.type, ht, TokenKind.type, groupCount,
        NumberedTree.groupCount]
  | lparen ht =>
    simp [openings, closings, Token.type, ht, TokenKind.type, groupCount, Spine.groupCount,
      Frame.groupCount]
  | operator ht =>
    rcases ht with ht | ⟨c, ht⟩ <;>
      simp [openings, closings, Token.type, ht, TokenKind.type, groupCount, Spine.groupCount,
        Frame.groupCount, Spine.groupCount_absorb]
  | @rparen s outer x inner i u ht hclose =>
    -- The frame of the opening parenthesis is the only one that is lost.
    have habsorb := s.groupCount_absorb (p := 0) (x := x)
    simp only [hclose, Spine.groupCount, Frame.groupCount] at habsorb
    simp [openings, closings, Token.type, ht, TokenKind.type, groupCount]
    omega
  | sortBy ht =>
    simp [openings, closings, Token.type, ht, TokenKind.type, groupCount, Spine.groupCount,
      Frame.groupCount, Spine.groupCount_plug]

/-- A reading that can end holds an operand, unless nothing has been read. -/
theorem Reading.Covers.eq_nil_or_holding (h : r.Covers ts) (hend : ∀ t ∈ ts.getLast?, t.CanEnd) :
    ts = [] ∨ ∃ s x, r = .holding s x := by
  cases h with
  | awaiting hs =>
    cases hs with
    | nil => exact .inl rfl
    | @group s us i t hs ht =>
      have : t.CanEnd := hend t List.getLast?_concat
      simp [Token.CanEnd, ht, TokenType.canPrecede] at this
    | @operator s us vs i op left hs hvs hleft hop =>
      have : op.CanEnd := hend op (by rw [← List.append_assoc, List.getLast?_concat]; rfl)
      rcases hop with hop | hop <;> simp [Token.CanEnd, hop, TokenType.canPrecede] at this
  | holding => exact .inr ⟨_, _, rfl⟩
  | order => exact .inr ⟨_, _, rfl⟩
  | @sorting i t left ts hts ht =>
    have : t.CanEnd := hend t List.getLast?_concat
    simp [Token.CanEnd, ht, TokenType.canPrecede] at this
  | sorted => exact .inr ⟨_, _, rfl⟩

/-- A reading that can end, and has no open parenthesis, stands for a rule. -/
theorem Reading.Covers.isRule (h : r.Covers ts) (hend : ∀ t ∈ ts.getLast?, t.CanEnd)
    (hcount : r.groupCount = 0) : IsRule ts := by
  rcases h.eq_nil_or_holding hend with rfl | ⟨s, x, rfl⟩
  · exact .empty
  · cases h with
    | holding hs hvs hx => exact .condition (hs.phrase hvs (Nat.add_eq_zero_iff.1 hcount).1)
    | order ho => exact .order ho
    | sorted hts ht ho =>
      have hleft := (Nat.add_eq_zero_iff.1 (Nat.add_eq_zero_iff.1 hcount).1).2
      exact .sorted (hts hleft) ht ho

end VersionRules
