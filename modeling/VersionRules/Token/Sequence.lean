import VersionRules.Token.Lexer

/-!
# The tokens of a rule

A rule is read token by token up to its end or its first error. This ends because no reader moves
back, and reading a token passes at least one character.

## Main definitions

* `Grammar.tokens` — all tokens of a rule, or its first error

## Main results

* `Lexer.length_of_nextToken` — reading a token passes at least one character
-/

namespace VersionRules

namespace Lexer

variable {g : Grammar} {α β : Type} {c c' : Cursor}

theorem bind_eq_ok {m : Lexer α} {f : α → Lexer β} {b : β} :
    (m >>= f) c = .ok b c' ↔ ∃ a d, m c = .ok a d ∧ f a d = .ok b c' := by
  show EStateM.bind m f c = _ ↔ _
  unfold EStateM.bind
  cases m c with
  | ok a d => exact ⟨fun h => ⟨a, d, rfl, h⟩, fun ⟨_, _, h, h'⟩ => by cases h; exact h'⟩
  | error e d => simp

@[simp]
theorem pure_eq_ok {a b : α} : (pure a : Lexer α) c = .ok b c' ↔ a = b ∧ c = c' := by
  show EStateM.Result.ok a c = .ok b c' ↔ _
  simp

@[simp]
theorem position_eq_ok {n : Nat} : position c = .ok n c' ↔ c.pos = n ∧ c = c' := by
  simp [position]

@[simp]
theorem peek_eq_ok {x : Option Char} : peek c = .ok x c' ↔ c.rest.head? = x ∧ c = c' := by
  simp [peek]

@[simp]
theorem failFrom_ne_ok {start : Nat} {cause : RuleError.Cause} {a : α} :
    failFrom start cause c ≠ .ok a c' := by
  simp [failFrom]

@[simp]
theorem throw_ne_ok {e : RuleError} {a : α} : (throw e : Lexer α) c ≠ .ok a c' := by
  show EStateM.Result.error e c ≠ _
  simp

/-- Reading a run of characters passes the run. -/
theorem length_of_readWhile {p : Char → Bool} {run : List Char}
    (h : readWhile g p c = .ok run c') : c'.rest.length + run.length = c.rest.length := by
  have hrun : (c.rest.takeWhile fun x => p x && !g.forbids x).length ≤ c.rest.length :=
    (List.takeWhile_sublist _).length_le
  simp only [readWhile] at h
  split at h
  · split at h
    · simp at h
    · obtain ⟨rfl, rfl⟩ := EStateM.Result.ok.inj h
      simp only [Cursor.skip, List.length_drop]
      omega
  · obtain ⟨rfl, rfl⟩ := EStateM.Result.ok.inj h
    simp only [Cursor.skip, List.length_drop]
    omega

theorem length_of_advance {u : Unit} (h : advance g c = .ok u c') :
    c'.rest.length = c.rest.length - 1 := by
  unfold advance at h
  split at h
  · split at h
    · simp at h
    · obtain ⟨-, rfl⟩ := EStateM.Result.ok.inj h
      simp_all
  · obtain ⟨-, rfl⟩ := EStateM.Result.ok.inj h
    simp_all

theorem length_of_skipSpace {u : Unit} (h : skipSpace g c = .ok u c') :
    c'.rest.length ≤ c.rest.length := by
  obtain ⟨run, d, hrun, hd⟩ := bind_eq_ok.1 h
  obtain ⟨-, rfl⟩ := pure_eq_ok.1 hd
  have := length_of_readWhile hrun
  omega

theorem length_of_readQuoted {quote : Char} {start : Nat} {text : List Char}
    (h : readQuoted g quote start c = .ok text c') : c'.rest.length < c.rest.length := by
  obtain ⟨_, c₁, h₁, h⟩ := bind_eq_ok.1 h
  obtain ⟨run, c₂, h₂, h⟩ := bind_eq_ok.1 h
  obtain ⟨x, c₃, h₃, h⟩ := bind_eq_ok.1 h
  obtain ⟨hx, rfl⟩ := peek_eq_ok.1 h₃
  have := length_of_advance h₁
  have := length_of_readWhile h₂
  cases x with
  | none => exact absurd h failFrom_ne_ok
  | some x =>
    obtain ⟨_, c₄, h₄, h⟩ := bind_eq_ok.1 h
    obtain ⟨-, rfl⟩ := pure_eq_ok.1 h
    have := length_of_advance h₄
    -- The closing quote is still there when it is passed.
    have hpos : 0 < c₂.rest.length := List.length_pos_of_mem (List.mem_of_mem_head? hx)
    omega

/-- Every word that is read passes at least one character. -/
theorem length_of_readWords {q : Qualifier} {start count : Nat} {words : List String}
    (h : readWords g q start count c = .ok words c') :
    c'.rest.length + count ≤ c.rest.length := by
  induction count generalizing c words with
  | zero =>
    obtain ⟨-, rfl⟩ := pure_eq_ok.1 h
    exact Nat.le_refl _
  | succ count ih =>
    obtain ⟨_, c₁, h₁, h⟩ := bind_eq_ok.1 h
    obtain ⟨word, c₂, h₂, h⟩ := bind_eq_ok.1 h
    have := length_of_skipSpace h₁
    have := length_of_readWhile h₂
    cases word with
    | nil => exact absurd h failFrom_ne_ok
    | cons x xs =>
      obtain ⟨rest, c₃, h₃, h⟩ := bind_eq_ok.1 h
      obtain ⟨-, rfl⟩ := pure_eq_ok.1 h
      have := ih h₃
      simp only [List.length_cons] at *
      omega

theorem length_of_readValue {q : Qualifier} {start : Nat} {words : List String}
    (h : readValue g q start c = .ok words c') : c'.rest.length ≤ c.rest.length := by
  obtain ⟨_, c₁, h₁, h⟩ := bind_eq_ok.1 h
  obtain ⟨x, c₂, h₂, h⟩ := bind_eq_ok.1 h
  obtain ⟨-, rfl⟩ := peek_eq_ok.1 h₂
  have := length_of_skipSpace h₁
  by_cases hx : x = some ':'
  · rw [if_pos hx] at h
    obtain ⟨_, c₃, h₃, h⟩ := bind_eq_ok.1 h
    obtain ⟨_, c₄, h₄, h⟩ := bind_eq_ok.1 h
    obtain ⟨y, c₅, h₅, h⟩ := bind_eq_ok.1 h
    obtain ⟨-, rfl⟩ := peek_eq_ok.1 h₅
    have := length_of_advance h₃
    have := length_of_skipSpace h₄
    cases hy : y.filter Grammar.isQuote with
    | none =>
      rw [hy] at h
      have := length_of_readWords h
      omega
    | some quote =>
      rw [hy] at h
      obtain ⟨text, c₆, h₆, h⟩ := bind_eq_ok.1 h
      have := length_of_readQuoted h₆
      by_cases hw : (q.splitValue text).length = q.arity
      · rw [if_pos hw] at h
        obtain ⟨-, rfl⟩ := pure_eq_ok.1 h
        omega
      · rw [if_neg hw] at h
        exact absurd h failFrom_ne_ok
  · rw [if_neg hx] at h
    exact absurd h failFrom_ne_ok

theorem length_of_readCharToken {x : Char} {start : Nat} {kind : TokenKind}
    (h : readCharToken g x start c = .ok kind c') : c'.rest.length = c.rest.length - 1 := by
  unfold readCharToken at h
  cases hx : g.charToken? x with
  | none =>
    rw [hx] at h
    obtain ⟨_, c₁, h₁, h⟩ := bind_eq_ok.1 h
    exact absurd h failFrom_ne_ok
  | some kind =>
    rw [hx] at h
    obtain ⟨_, c₁, h₁, h⟩ := bind_eq_ok.1 h
    obtain ⟨-, rfl⟩ := pure_eq_ok.1 h
    exact length_of_advance h₁

theorem length_of_readWordToken {word : String} {start : Nat} {kind : TokenKind}
    (h : readWordToken g word start c = .ok kind c') : c'.rest.length ≤ c.rest.length := by
  unfold readWordToken at h
  cases hw : g.wordToken? word with
  | some kind =>
    rw [hw] at h
    obtain ⟨-, rfl⟩ := pure_eq_ok.1 h
    exact Nat.le_refl _
  | none =>
    rw [hw] at h
    cases hq : g.qualifier? word with
    | some q =>
      rw [hq] at h
      obtain ⟨words, c₁, h₁, h⟩ := bind_eq_ok.1 h
      obtain ⟨-, rfl⟩ := pure_eq_ok.1 h
      exact length_of_readValue h₁
    | none =>
      rw [hq] at h
      exact absurd h failFrom_ne_ok

theorem length_of_readToken {t : Token} (h : readToken g c = .ok t c') :
    c'.rest.length < c.rest.length := by
  obtain ⟨_, c₁, h₁, h⟩ := bind_eq_ok.1 h
  obtain ⟨-, rfl⟩ := position_eq_ok.1 h₁
  obtain ⟨_, c₂, h₂, h⟩ := bind_eq_ok.1 h
  obtain ⟨x, c₃, h₃, h⟩ := bind_eq_ok.1 h
  obtain ⟨hx, rfl⟩ := peek_eq_ok.1 h₃
  have := length_of_skipSpace h₂
  cases x with
  | none => exact absurd h failFrom_ne_ok
  | some x =>
    have hpos : 0 < c₂.rest.length := by
      cases hrest : c₂.rest <;> simp_all
    obtain ⟨_, c₄, h₄, h⟩ := bind_eq_ok.1 h
    obtain ⟨-, rfl⟩ := position_eq_ok.1 h₄
    obtain ⟨word, c₅, h₅, h⟩ := bind_eq_ok.1 h
    have := length_of_readWhile h₅
    cases word with
    | nil =>
      obtain ⟨kind, c₆, h₆, h⟩ := bind_eq_ok.1 h
      obtain ⟨_, c₇, h₇, h⟩ := bind_eq_ok.1 h
      obtain ⟨-, rfl⟩ := position_eq_ok.1 h₇
      obtain ⟨-, rfl⟩ := pure_eq_ok.1 h
      have := length_of_readCharToken h₆
      simp_all
      omega
    | cons y ys =>
      obtain ⟨kind, c₆, h₆, h⟩ := bind_eq_ok.1 h
      obtain ⟨_, c₇, h₇, h⟩ := bind_eq_ok.1 h
      obtain ⟨-, rfl⟩ := position_eq_ok.1 h₇
      obtain ⟨-, rfl⟩ := pure_eq_ok.1 h
      have := length_of_readWordToken h₆
      simp_all
      omega

/-- Reading a token passes at least one character. -/
theorem length_of_nextToken {t : Token} (h : nextToken g c = .ok t c') :
    c'.rest.length < c.rest.length := by
  obtain ⟨t₀, c₁, h₁, h⟩ := bind_eq_ok.1 h
  have := length_of_readToken h₁
  cases ht : checkValue t₀ with
  | ok t =>
    rw [ht] at h
    obtain ⟨-, rfl⟩ := pure_eq_ok.1 h
    exact this
  | error e =>
    rw [ht] at h
    exact absurd h throw_ne_ok

end Lexer

namespace Grammar

/-- All tokens from a cursor on, or the first error. -/
def tokensFrom (g : Grammar) (c : Cursor) : Except RuleError (List Token) :=
  if c.hasNext then
    match _h : Lexer.nextToken g c with
    | .ok t c' => (g.tokensFrom c').map (t :: ·)
    | .error e _ => .error e
  else
    .ok []
termination_by c.rest.length
decreasing_by exact Lexer.length_of_nextToken ‹_›

/-- All tokens of a rule, or its first error. -/
def tokens (g : Grammar) (rule : String) : Except RuleError (List Token) :=
  g.tokensFrom (.ofRule rule)

end Grammar

end VersionRules
