import VersionRules.Proofs.Token.Reading

/-!
# What is known of the tokens of a rule

A grammar lists the types of token that its rules are made of. Every token that is read from a rule
is of a listed type: a single character, a keyword and the name of a qualifier are looked up among
the listed types only. A qualifier term is passed on only if its words are a value of the qualifier.

## Main results

* `Lexer.allows_of_nextToken` — one token is of a type that the grammar allows
* `Grammar.allows_of_mem_tokens` — and so are all tokens of a rule
* `Grammar.validate_of_mem_tokens` — the terms of a rule ask for values that can be recorded
-/

namespace VersionRules

variable {g : Grammar} {c c' : Cursor} {x : Char} {start : Nat} {word : String}
  {words : List String} {q : Qualifier} {kind : TokenKind} {t t' : Token} {ts : List Token}
  {rule : String}

namespace Grammar

theorem allows_of_charToken? (h : g.charToken? x = some kind) : g.allows kind.type := by
  unfold charToken? at h
  split at h
  case h_4 => cases h
  all_goals
    obtain ⟨hallows, hkind⟩ := Option.ite_none_right_eq_some.1 h
    obtain rfl := Option.some.inj hkind
    exact hallows

theorem allows_of_wordToken? (h : g.wordToken? word = some kind) : g.allows kind.type := by
  unfold wordToken? at h
  split at h
  · next hallows =>
    obtain rfl := Option.some.inj h
    exact (Bool.and_eq_true_iff.1 hallows).1
  · simp only [Option.orElse_eq_orElse, Option.orElse_eq_or, Option.or_eq_some_iff] at h
    rcases h with h | ⟨-, h⟩
    · obtain ⟨hallows, hkind⟩ := Option.ite_none_right_eq_some.1 h
      obtain ⟨c, -, rfl⟩ := Option.map_eq_some_iff.1 hkind
      exact hallows
    · obtain ⟨hallows, hkind⟩ := Option.ite_none_right_eq_some.1 h
      obtain ⟨-, hkind⟩ := Option.ite_none_right_eq_some.1 hkind
      obtain rfl := Option.some.inj hkind
      exact hallows

theorem allows_of_qualifier? (h : g.qualifier? word = some q) : g.allows .qualifier := by
  unfold qualifier? at h
  exact (Option.ite_none_right_eq_some.1 h).1

end Grammar

namespace Lexer

/-- A token of a single character is the one that the character is by itself. -/
theorem charToken?_of_readCharToken (h : readCharToken g x start c = .ok kind c') :
    g.charToken? x = some kind := by
  unfold readCharToken at h
  cases hx : g.charToken? x with
  | some kind =>
    rw [hx] at h
    obtain ⟨_, c₁, -, h⟩ := bind_eq_ok.1 h
    rw [(pure_eq_ok.1 h).1]
  | none =>
    rw [hx] at h
    obtain ⟨_, c₁, -, h⟩ := bind_eq_ok.1 h
    exact absurd h failFrom_ne_ok

/-- A token that begins with a word is the word by itself, or a term of the qualifier it names. -/
theorem readWordToken_cases (h : readWordToken g word start c = .ok kind c') :
    g.wordToken? word = some kind ∧ c = c' ∨
      ∃ q words, g.qualifier? word = some q ∧ kind = .qualifier q words := by
  unfold readWordToken at h
  cases hword : g.wordToken? word with
  | some kind =>
    rw [hword] at h
    obtain ⟨rfl, rfl⟩ := pure_eq_ok.1 h
    exact .inl ⟨rfl, rfl⟩
  | none =>
    rw [hword] at h
    cases hq : g.qualifier? word with
    | some q =>
      rw [hq] at h
      obtain ⟨words, c₁, -, h⟩ := bind_eq_ok.1 h
      exact .inr ⟨q, words, rfl, (pure_eq_ok.1 h).1.symm⟩
    | none =>
      rw [hq] at h
      exact absurd h failFrom_ne_ok

theorem allows_of_readCharToken (h : readCharToken g x start c = .ok kind c') :
    g.allows kind.type :=
  Grammar.allows_of_charToken? (charToken?_of_readCharToken h)

theorem allows_of_readWordToken (h : readWordToken g word start c = .ok kind c') :
    g.allows kind.type := by
  obtain ⟨hword, -⟩ | ⟨q, words, hq, rfl⟩ := readWordToken_cases h
  · exact Grammar.allows_of_wordToken? hword
  · exact Grammar.allows_of_qualifier? hq

theorem allows_of_readToken (h : readToken g c = .ok t c') : g.allows t.type := by
  cases readToken_eq_ok_iff.1 h with
  | char _ _ _ hkind => exact allows_of_readCharToken hkind
  | word _ _ _ _ hkind => exact allows_of_readWordToken hkind

/-- A token is checked without being changed. -/
theorem eq_of_checkValue (h : checkValue t = .ok t') : t' = t := by
  unfold checkValue at h
  split at h
  · split at h
    · exact (Except.ok.inj h).symm
    · cases h
  · exact (Except.ok.inj h).symm

theorem validate_of_checkValue (h : checkValue t = .ok t') (ht : t.kind = .qualifier q words) :
    q.validate words = .ok () := by
  simp only [checkValue, ht] at h
  split at h
  · assumption
  · cases h

/-- A token that is passed on has been checked. -/
theorem readToken_of_nextToken (h : nextToken g c = .ok t c') :
    readToken g c = .ok t c' ∧ checkValue t = .ok t := by
  obtain ⟨t₀, c₁, h₁, h⟩ := bind_eq_ok.1 h
  cases ht : checkValue t₀ with
  | ok t₁ =>
    rw [ht] at h
    obtain ⟨rfl, rfl⟩ := pure_eq_ok.1 h
    obtain rfl := eq_of_checkValue ht
    exact ⟨h₁, ht⟩
  | error e =>
    rw [ht] at h
    exact absurd h throw_ne_ok

theorem allows_of_nextToken (h : nextToken g c = .ok t c') : g.allows t.type :=
  allows_of_readToken (readToken_of_nextToken h).1

theorem validate_of_nextToken (h : nextToken g c = .ok t c') :
    ∀ q words, t.kind = .qualifier q words → q.validate words = .ok () :=
  fun _ _ => validate_of_checkValue (readToken_of_nextToken h).2

end Lexer

/-- Every token of a rule is of a type that the grammar of the rule allows. -/
theorem Grammar.allows_of_mem_tokens (h : g.tokens rule = .ok ts) :
    ∀ t ∈ ts, g.allows t.type :=
  forall_mem_of_tokensFrom (fun _ _ _ => Lexer.allows_of_nextToken) h

/-- The terms of a rule ask for values of their qualifiers. -/
theorem Grammar.validate_of_mem_tokens (h : g.tokens rule = .ok ts) (ht : t ∈ ts)
    (hkind : t.kind = .qualifier q words) : q.validate words = .ok () :=
  forall_mem_of_tokensFrom (fun _ _ _ => Lexer.validate_of_nextToken) h t ht q words hkind

end VersionRules
