import VersionRules.Proofs.Token.Locality
import VersionRules.Proofs.Token.Types

/-!
# Where the tokens of a rule stand

A token names the range of characters that it was read from. The range lies in the rule and is not
empty, and the characters in it are the same token when they are a rule of their own. When reading
ends with an error, the error lies in the rule too, and if it is about a token, then the characters
of this token give the same error.

## Main definitions

* `Cursor.In` — the cursors that reading a text goes through
* `Text.slice` — a range of the characters of a text
* `Token.alone`, `Token.StandsIn` — a token in a rule of its own, and a token at its place

## Main results

* `Lexer.standsIn_of_readToken` — a token that is read stands in the rule
* `Grammar.standsIn_of_mem_tokens` — each token of a rule is the token of its own characters
* `Grammar.tokens_error_cases` — the errors of splitting a rule into tokens
-/

namespace VersionRules

variable {g : Grammar} {c c' : Cursor} {text run space : List Char} {rule : String}
  {kind : TokenKind} {t u : Token} {ts : List Token} {e : RuleError}

/-- The characters of a text from `start` up to, and without, `stop`. -/
def Text.slice (text : String) (start stop : Nat) : String :=
  String.ofList (text.toList.extract start stop)

/-! ### Cursors in a text -/

namespace Cursor

/-- What is left to be read is the text without what was read before. -/
structure In (c : Cursor) (text : List Char) : Prop where
  pos_le : c.pos ≤ text.length
  rest_eq : c.rest = text.drop c.pos

theorem in_ofRule (rule : String) : (ofRule rule).In rule.toList :=
  ⟨Nat.zero_le _, rfl⟩

theorem In.stop_eq (h : c.In text) : c.stop = text.length := by
  have := h.pos_le
  rw [stop, h.rest_eq, List.length_drop]
  omega

theorem In.passed (h : c.In text) (hrun : c.Passed run c') : c'.In text := by
  constructor
  · rw [← h.stop_eq, ← hrun.stop_eq]
    exact Nat.le_add_right _ _
  · rw [hrun.pos_eq, ← List.drop_drop, ← h.rest_eq, hrun.rest_eq, List.drop_left]

/-- What is passed is what stands in the text between the two cursors. -/
theorem In.extract_eq (h : c.In text) (hrun : c.Passed run c') :
    text.extract c.pos c'.pos = run := by
  rw [List.extract_eq_take_drop, ← h.rest_eq, hrun.rest_eq, hrun.pos_eq, Nat.add_sub_cancel_left,
    List.take_left]

end Cursor

/-! ### A token and its characters -/

namespace Token

/-- A token in a rule that consists of its characters. -/
def alone (t : Token) : Token :=
  ⟨0, t.stop - t.start, t.kind⟩

/-- A token stands at its place in a rule: its range lies in the rule and is not empty, and the
characters in it are the token when they stand alone. -/
structure StandsIn (t : Token) (g : Grammar) (rule : String) : Prop where
  start_lt : t.start < t.stop
  stop_le : t.stop ≤ rule.length
  standsAlone : Lexer.StandsAlone g (rule.toList.extract t.start t.stop) t.kind

end Token

namespace Lexer

theorem StandsAlone.ne_nil (h : StandsAlone g run kind) : run ≠ [] := by
  rintro rfl
  exact absurd h.hasNext (by decide)

/-- A token that is read stands in the rule. -/
theorem standsIn_of_readToken (hc : c.In rule.toList) (hnext : c.hasNext)
    (h : readToken g c = .ok t c') : t.StandsIn g rule ∧ c'.In rule.toList := by
  obtain ⟨space, d, run, hspace, -, hrun, hstart, hstop, halone⟩ := readToken_alone hnext h
  have hd := hc.passed hspace
  have hc' := hd.passed hrun
  have hpos := List.length_pos_iff.2 halone.ne_nil
  have hlength := hrun.pos_eq
  refine ⟨⟨?_, ?_, ?_⟩, hc'⟩
  · omega
  · rw [hstop, ← String.length_toList]
    exact hc'.pos_le
  · rw [hstart, hstop, hd.extract_eq hrun]
    exact halone

/-- A token is accepted where it stands if it is accepted alone. -/
theorem checkValue_alone_cases (t : Token) :
    checkValue t = .ok t ∧ checkValue t.alone = .ok t.alone ∨
      ∃ cause, checkValue t = .error (.atToken cause t) ∧
        checkValue t.alone = .error (.atToken cause t.alone) := by
  rcases checkValue_cases t.kind with hok | ⟨cause, herror⟩
  · exact .inl ⟨hok _ _, hok _ _⟩
  · exact .inr ⟨cause, herror _ _, herror _ _⟩

/-- Reading a token fails before it is complete, or else because of what it asks for. -/
theorem nextToken_eq_error (h : nextToken g c = .error e c') :
    readToken g c = .error e c' ∨ ∃ t, readToken g c = .ok t c' ∧ checkValue t = .error e := by
  cases hread : readToken g c with
  | error e' d => exact .inl (hread ▸ (bind_of_error hread).symm.trans h)
  | ok t d =>
    rw [nextToken_of_readToken hread] at h
    cases hcheck : checkValue t with
    | ok u =>
      rw [hcheck] at h
      cases h
    | error e' =>
      rw [hcheck] at h
      obtain ⟨rfl, rfl⟩ := EStateM.Result.error.inj h
      exact .inr ⟨t, rfl, hcheck⟩

end Lexer

namespace Token.StandsIn

/-- The characters of a token, as a rule of their own, begin with this token and end with it. -/
theorem readToken_slice (h : t.StandsIn g rule) :
    (Cursor.ofRule (Text.slice rule t.start t.stop)).hasNext ∧
      Lexer.readToken g (.ofRule (Text.slice rule t.start t.stop)) =
        .ok t.alone ⟨t.stop - t.start, []⟩ := by
  have hlength : (rule.toList.extract t.start t.stop).length = t.stop - t.start := by
    have := h.stop_le
    rw [← String.length_toList] at this
    rw [List.extract_eq_take_drop, List.length_take, List.length_drop]
    omega
  obtain ⟨hnext, hread⟩ := h.standsAlone
  rw [hlength] at hread
  rw [Cursor.ofRule, Text.slice, String.toList_ofList]
  exact ⟨hnext, hread⟩

/-- The characters of a token are a rule that consists of this token, or that is rejected for the
same reason as the token. -/
theorem tokens_slice (h : t.StandsIn g rule) :
    g.tokens (Text.slice rule t.start t.stop) = (Lexer.checkValue t.alone).map ([·]) := by
  obtain ⟨hnext, hread⟩ := h.readToken_slice
  have hcheck := Lexer.nextToken_of_readToken hread
  rcases Lexer.checkValue_alone_cases t with ⟨-, hok⟩ | ⟨cause, -, herror⟩
  · rw [hok] at hcheck ⊢
    rw [Grammar.tokens, Grammar.tokensFrom_of_nextToken hnext hcheck,
      Grammar.tokensFrom_of_not_hasNext rfl]
    rfl
  · rw [herror] at hcheck ⊢
    exact Grammar.tokensFrom_of_error hnext hcheck

end Token.StandsIn

/-! ### All tokens of a rule -/

namespace Grammar

/-- Each token of a rule stands in the rule, and its characters are a rule that consists of it. -/
theorem standsIn_of_mem_tokens (h : g.tokens rule = .ok ts) (ht : t ∈ ts) :
    t.StandsIn g rule ∧ g.tokens (Text.slice rule t.start t.stop) = .ok [t.alone] := by
  refine forall_mem_of_invariant (I := fun c => c.In rule.toList)
    (P := fun t => t.StandsIn g rule ∧ g.tokens (Text.slice rule t.start t.stop) = .ok [t.alone])
    ?_ (Cursor.in_ofRule rule) h t ht
  intro c t c' hc hnext ht
  obtain ⟨hread, hcheck⟩ := Lexer.readToken_of_nextToken ht
  obtain ⟨hstands, hc'⟩ := Lexer.standsIn_of_readToken hc hnext hread
  refine ⟨⟨hstands, ?_⟩, hc'⟩
  rcases Lexer.checkValue_alone_cases t with ⟨-, hok⟩ | ⟨cause, herror, -⟩
  · rw [hstands.tokens_slice, hok]
    rfl
  · cases hcheck.symm.trans herror

/-- The errors of splitting a rule into tokens: characters of the rule that are no token, and tokens
that stand in the rule and whose characters, as a rule of their own, give the same error. -/
theorem tokens_error_cases (h : g.tokens rule = .error e) :
    e.Within rule.length ∨
      ∃ cause t, e = .atToken cause t ∧ t.StandsIn g rule ∧
        g.tokens (Text.slice rule t.start t.stop) = .error (.atToken cause t.alone) := by
  obtain ⟨c, c', hc, hnext, he⟩ : ∃ c c', c.In rule.toList ∧ c.hasNext ∧
      Lexer.nextToken g c = .error e c' := by
    refine exists_nextToken_eq_error ?_ (Cursor.in_ofRule rule) h
    intro c t c' hc hnext ht
    exact (Lexer.standsIn_of_readToken hc hnext (Lexer.readToken_of_nextToken ht).1).2
  rcases Lexer.nextToken_eq_error he with hread | ⟨t, hread, hcheck⟩
  · left
    have hwithin := Lexer.within_of_readToken hnext hread
    rwa [hc.stop_eq, String.length_toList] at hwithin
  · right
    obtain ⟨hstands, -⟩ := Lexer.standsIn_of_readToken hc hnext hread
    rcases Lexer.checkValue_alone_cases t with ⟨hok, -⟩ | ⟨cause, herror, halone⟩
    · cases hok.symm.trans hcheck
    · obtain rfl := Except.error.inj (herror.symm.trans hcheck)
      refine ⟨cause, t, rfl, hstands, ?_⟩
      rw [hstands.tokens_slice, halone]
      rfl

/-- The rules without tokens are those of white space alone. -/
theorem tokens_eq_nil_iff : g.tokens rule = .ok [] ↔ ∀ x ∈ rule.toList, Text.isSpace x := by
  have hblank : (∀ x ∈ rule.toList, Text.isSpace x) ↔ (Cursor.ofRule rule).hasNext = false := by
    simp [Cursor.hasNext, Cursor.ofRule]
  rw [hblank]
  refine ⟨fun h => ?_, tokensFrom_of_not_hasNext⟩
  cases hnext : (Cursor.ofRule rule).hasNext with
  | false => rfl
  | true =>
    cases hread : Lexer.nextToken g (.ofRule rule) with
    | error e c' =>
      rw [tokens, tokensFrom_of_error hnext hread] at h
      cases h
    | ok t c' =>
      rw [tokens, tokensFrom_of_nextToken hnext hread] at h
      cases hrest : g.tokensFrom c' <;> rw [hrest] at h <;> cases h

end Grammar

end VersionRules
