import VersionRules.Proofs.Token.Reading

/-!
# Where a rule begins

Positions are counted from the beginning of a text. If a rule is read further on in a text, then the
same happens to it, with all positions moved by as many characters: those of its tokens, and that of
its error. A reader may use positions only to hand them on.

## Main definitions

* `Token.shift`, `RuleError.shift` — tokens and errors at moved positions
* `Lexer.Moves` — a reader that does at moved positions what another one does

## Main results

* `Lexer.Moves.bind` — readers one after the other
* `Lexer.moves_nextToken` — reading a token
* `Grammar.tokensFrom_shift` — all tokens from a moved cursor on, or the first error
-/

namespace VersionRules

variable {g : Grammar} {α β γ δ : Type} {k : Nat} {q : Qualifier} {start : Nat}

/-- A cursor before the same characters, with `k` more characters read before. -/
def Cursor.shift (k : Nat) (c : Cursor) : Cursor :=
  ⟨c.pos + k, c.rest⟩

/-- A token that stands `k` characters further on. -/
def Token.shift (k : Nat) (t : Token) : Token :=
  ⟨t.start + k, t.stop + k, t.kind⟩

/-- A place that is `k` characters further on. -/
def Place.shift (k : Nat) : Place → Place
  | unknown => unknown
  | char pos => char (pos + k)
  | range start stop => range (start + k) (stop + k)
  | token t => token (t.shift k)

/-- The same error `k` characters further on. -/
def RuleError.shift (k : Nat) (e : RuleError) : RuleError :=
  ⟨e.cause, e.place.shift k⟩

theorem Cursor.rest_shift (k : Nat) (c : Cursor) : (c.shift k).rest = c.rest :=
  rfl

theorem Cursor.skip_shift (k n : Nat) (c : Cursor) : (c.shift k).skip n = (c.skip n).shift k := by
  rw [Cursor.skip, Cursor.shift, Nat.add_right_comm]
  rfl

namespace Lexer

/-- What a reader gives, with `f` applied to it and at positions moved by `k`. -/
def movedResult (k : Nat) (f : α → β) :
    EStateM.Result RuleError Cursor α → EStateM.Result RuleError Cursor β
  | .ok a c => .ok (f a) (c.shift k)
  | .error e c => .error (e.shift k) (c.shift k)

/-- From every cursor that is moved by `k`, the reader `m'` does what `m` does from this cursor, and
where `m` gives `a`, it gives `f a`. -/
def Moves (k : Nat) (f : α → β) (m : Lexer α) (m' : Lexer β) : Prop :=
  ∀ c, m' (c.shift k) = movedResult k f (m c)

/-! ### Readers one after the other -/

theorem Moves.bind {f : α → β} {h : γ → δ} {m : Lexer α} {m' : Lexer β} {n : α → Lexer γ}
    {n' : β → Lexer δ} (hm : Moves k f m m') (hn : ∀ a, Moves k h (n a) (n' (f a))) :
    Moves k h (m >>= n) (m' >>= n') := by
  intro c
  have hc := hm c
  cases hread : m c with
  | ok a d =>
    rw [hread] at hc
    rw [bind_of_ok hread, bind_of_ok hc]
    exact hn a d
  | error e d =>
    rw [hread] at hc
    rw [bind_of_error hread, bind_of_error hc]
    rfl

theorem moves_pure (f : α → β) (a : α) : Moves k f (pure a) (pure (f a)) :=
  fun _ => rfl

theorem moves_failFrom (f : α → β) (cause : RuleError.Cause) :
    Moves k f (failFrom start cause) (failFrom (start + k) cause) :=
  fun _ => rfl

theorem moves_throw (f : α → β) (e : RuleError) : Moves k f (throw e) (throw (e.shift k)) :=
  fun _ => rfl

theorem moves_position : Moves k (· + k) position position :=
  fun _ => rfl

theorem moves_peek : Moves k id peek peek :=
  fun _ => rfl

/-! ### The two ways to pass characters -/

theorem moves_readWhile (p : Char → Bool) : Moves k id (readWhile g p) (readWhile g p) := by
  intro c
  simp only [readWhile, Cursor.skip_shift, Cursor.rest_shift]
  generalize c.rest.takeWhile _ = run
  generalize c.skip run.length = d
  obtain ⟨pos, - | ⟨x, rest⟩⟩ := d
  · rfl
  · by_cases hx : p x
    · simp only [if_pos hx]
      rfl
    · simp only [if_neg hx]
      rfl

theorem moves_advance : Moves k id (advance g) (advance g) := by
  rintro ⟨pos, - | ⟨x, rest⟩⟩
  · rfl
  · by_cases hx : g.forbids x
    · simp only [advance, Cursor.shift, if_pos hx]
      rfl
    · simp only [advance, Cursor.shift, if_neg hx, Nat.add_right_comm pos k 1]
      rfl

theorem moves_skipSpace : Moves k id (skipSpace g) (skipSpace g) :=
  (moves_readWhile _).bind fun _ => moves_pure id ()

/-! ### The readers of the rule language -/

theorem moves_readQuoted (quote : Char) :
    Moves k id (readQuoted g quote start) (readQuoted g quote (start + k)) := by
  unfold readQuoted
  refine moves_advance.bind fun _ => (moves_readWhile _).bind fun text => moves_peek.bind ?_
  rintro (- | x)
  · exact moves_failFrom id _
  · exact moves_advance.bind fun _ => moves_pure id text

theorem moves_readWords (count : Nat) :
    Moves k id (readWords g q start count) (readWords g q (start + k) count) := by
  induction count with
  | zero => exact moves_pure id []
  | succ count ih =>
    refine moves_skipSpace.bind fun _ => (moves_readWhile _).bind ?_
    rintro (- | ⟨x, xs⟩)
    · exact moves_failFrom id _
    · exact ih.bind fun _ => moves_pure id _

theorem moves_readValue : Moves k id (readValue g q start) (readValue g q (start + k)) := by
  unfold readValue
  refine moves_skipSpace.bind fun _ => moves_peek.bind fun x => ?_
  by_cases hcolon : x = some ':'
  · simp only [id, if_pos hcolon]
    refine moves_advance.bind fun _ => moves_skipSpace.bind fun _ => moves_peek.bind fun y => ?_
    simp only [id]
    cases y.filter Grammar.isQuote with
    | none => exact moves_readWords q.arity
    | some quote =>
      refine (moves_readQuoted quote).bind fun text => ?_
      by_cases hcount : (q.splitValue text).length = q.arity
      · simp only [id, if_pos hcount]
        exact moves_pure id _
      · simp only [id, if_neg hcount]
        exact moves_failFrom id _
  · simp only [id, if_neg hcolon]
    exact moves_failFrom id _

theorem moves_readCharToken (x : Char) :
    Moves k id (readCharToken g x start) (readCharToken g x (start + k)) := by
  unfold readCharToken
  cases g.charToken? x with
  | some kind => exact moves_advance.bind fun _ => moves_pure id kind
  | none => exact moves_advance.bind fun _ => moves_failFrom id _

theorem moves_readWordToken (word : String) :
    Moves k id (readWordToken g word start) (readWordToken g word (start + k)) := by
  unfold readWordToken
  cases g.wordToken? word with
  | some kind => exact moves_pure id kind
  | none =>
    cases g.qualifier? word with
    | some q => exact moves_readValue.bind fun words => moves_pure id _
    | none => exact moves_failFrom id _

/-- A token that is read further on stands further on. -/
theorem moves_readToken : Moves k (Token.shift k) (readToken g) (readToken g) := by
  unfold readToken
  refine moves_position.bind fun before => moves_skipSpace.bind fun _ => moves_peek.bind ?_
  rintro (- | x)
  · exact moves_failFrom _ _
  · refine moves_position.bind fun start => (moves_readWhile _).bind ?_
    rintro (- | ⟨y, ys⟩)
    · exact (moves_readCharToken x).bind fun kind => moves_position.bind fun stop =>
        moves_pure (Token.shift k) ⟨start, stop, kind⟩
    · exact (moves_readWordToken _).bind fun kind => moves_position.bind fun stop =>
        moves_pure (Token.shift k) ⟨start, stop, kind⟩

theorem moves_nextToken : Moves k (Token.shift k) (nextToken g) (nextToken g) := by
  unfold nextToken
  refine moves_readToken.bind fun t => ?_
  rcases checkValue_cases t.kind with hok | ⟨cause, herror⟩
  · -- The check does not look at the place of a token, and only its error tells it.
    have ht : checkValue t = .ok t := hok _ _
    have hshift : checkValue (t.shift k) = .ok (t.shift k) := hok _ _
    rw [ht, hshift]
    exact moves_pure _ t
  · have ht : checkValue t = .error (.atToken cause t) := herror _ _
    have hshift : checkValue (t.shift k) = .error (.atToken cause (t.shift k)) := herror _ _
    rw [ht, hshift]
    exact moves_throw _ (.atToken cause t)

end Lexer

/-! ### All tokens of a rule -/

namespace Grammar

/-- What becomes of a rule that is read further on in a text: the same tokens further on, or the
same error. -/
theorem tokensFrom_shift (g : Grammar) (k : Nat) (c : Cursor) :
    g.tokensFrom (c.shift k) =
      match g.tokensFrom c with
      | .ok ts => .ok (ts.map (Token.shift k))
      | .error e => .error (e.shift k) := by
  fun_induction tokensFrom g c with
  | case1 c hnext t c' ht ih =>
    have hshift : Lexer.nextToken g (c.shift k) = .ok (t.shift k) (c'.shift k) :=
      (Lexer.moves_nextToken c).trans (congrArg _ ht)
    have hnext' : (c.shift k).hasNext := hnext
    rw [tokensFrom_of_nextToken hnext' hshift, ih]
    cases g.tokensFrom c' <;> rfl
  | case2 c hnext e c' he =>
    have hshift : Lexer.nextToken g (c.shift k) = .error (e.shift k) (c'.shift k) :=
      (Lexer.moves_nextToken c).trans (congrArg _ he)
    exact tokensFrom_of_error hnext hshift
  | case3 c hnext => exact tokensFrom_of_not_hasNext (Bool.eq_false_iff.2 hnext)

end Grammar

end VersionRules
