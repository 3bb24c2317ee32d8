import VersionRules.Proofs.Rule.Offences
import VersionRules.Proofs.Token.Locality
import VersionRules.Proofs.Token.Names

/-!
# Spellings of the order of version strings

A rule consists of the ordering token in many spellings: in upper or lower case, with a dash or an
underscore, and with white space around the name. A letter beyond ASCII may be part of it if it
becomes one of the name in upper case. These are all spellings, since the name is looked up by its
canonical form, and since no character of this form ends a word or is forbidden.

## Main definitions

* `SpellsOrder` — the texts that name the order of version strings, and nothing else

## Main results

* `Rank.exists_word_of_readToken`, `Rank.readToken_of_keyword` — what the ordering token is read
  from
* `exists_isLoneOrder_iff` — the spellings are the rules that consist of the ordering token
-/

namespace VersionRules

variable {rule : String} {t : Token} {c c' : Cursor} {word : List Char}

/-- The text names the order of version strings, with nothing but white space around the name. -/
def SpellsOrder (rule : String) : Prop :=
  ∃ before word after, rule.toList = before ++ word ++ after ∧ (∀ x ∈ before, Text.isSpace x) ∧
    (∀ x ∈ after, Text.isSpace x) ∧ Text.keyword (String.ofList word) = TokenKind.orderName

/-! ### The name of the order -/

namespace Rank

theorem wordToken?_eq_order_iff {word : String} :
    grammar.wordToken? word = some .order ↔ Text.keyword word = TokenKind.orderName := by
  rw [Grammar.wordToken?_eq_some_iff]
  constructor
  · rintro ⟨-, hname⟩
    exact (Option.some.inj hname).symm
  · intro hname
    exact ⟨rfl, congrArg some hname.symm⟩

theorem ne_nil_of_keyword (h : Text.keyword (String.ofList word) = TokenKind.orderName) :
    word ≠ [] := by
  rintro rfl
  exact absurd h (by decide)

/-- The ordering token is no single character. -/
theorem charToken?_ne_order (x : Char) : grammar.charToken? x ≠ some .order := by
  intro h
  cases (Grammar.charToken?_eq_some_iff.1 h).2

/-- Of the tokens that begin with a word, the ordering token is the name of the order. -/
theorem readWordToken_eq_order_iff {word : String} {start : Nat} :
    Lexer.readWordToken grammar word start c = .ok .order c' ↔
      Text.keyword word = TokenKind.orderName ∧ c = c' := by
  constructor
  · intro h
    obtain ⟨hword, hc⟩ | ⟨q, words, -, hkind⟩ := Lexer.readWordToken_cases h
    · exact ⟨wordToken?_eq_order_iff.1 hword, hc⟩
    · cases hkind
  · rintro ⟨hname, rfl⟩
    rw [Lexer.readWordToken, wordToken?_eq_order_iff.2 hname]
    rfl

theorem forbids_iff {x : Char} : grammar.forbids x ↔ x = ',' := by
  simp [Grammar.forbids, grammar]

/-- A name that is read as the order is a word, although letters beyond ASCII may be in it. -/
theorem isWordChar_of_keyword (h : Text.keyword (String.ofList word) = TokenKind.orderName) :
    ∀ x ∈ word, grammar.isWordChar x ∧ grammar.forbids x = false := by
  intro x hx
  have hplain := Grammar.isPlain_of_wordToken? (wordToken?_eq_order_iff.2 h)
  rw [String.toList_ofList] at hplain
  refine ⟨Grammar.isWordChar_of_isPlain (hplain x hx), ?_⟩
  rw [Bool.eq_false_iff]
  intro hforbids
  obtain rfl := forbids_iff.1 hforbids
  cases hplain _ hx

end Rank

/-! ### The ordering token -/

/-- The ordering token is read from a name of the order, which may have white space before it. -/
theorem Rank.exists_word_of_readToken (h : Lexer.readToken grammar c = .ok t c')
    (ht : t.kind = .order) :
    ∃ before word, c.Passed (before ++ word) c' ∧ (∀ x ∈ before, Text.isSpace x) ∧
      Text.keyword (String.ofList word) = TokenKind.orderName := by
  cases Lexer.readToken_eq_ok_iff.1 h with
  | @char x kind d c' _ _ _ hkind =>
    obtain rfl : kind = .order := ht
    exact absurd (Lexer.charToken?_of_readCharToken hkind) (charToken?_ne_order x)
  | @word x word kind d d' c' hspace _ hword _ hkind =>
    obtain rfl : kind = .order := ht
    obtain ⟨hname, rfl⟩ := readWordToken_eq_order_iff.1 hkind
    obtain ⟨before, d₁, hbefore, h⟩ := Lexer.bind_eq_ok.1 hspace
    obtain ⟨-, rfl⟩ := Lexer.pure_eq_ok.1 h
    obtain ⟨hpassed, hblank, -⟩ := Lexer.readWhile_eq_ok hbefore
    obtain ⟨hpassed', -, -⟩ := Lexer.readWhile_eq_ok hword
    exact ⟨before, word, hpassed.trans hpassed', fun x hx => (hblank x hx).1, hname⟩

/-- It is read from every name with white space around it. -/
theorem Rank.readToken_of_keyword {n : Nat} {before after : List Char}
    (hbefore : ∀ x ∈ before, Text.isSpace x) (hafter : ∀ x ∈ after, Text.isSpace x)
    (hname : Text.keyword (String.ofList word) = TokenKind.orderName) :
    Lexer.readToken grammar ⟨n, before ++ word ++ after⟩ =
      .ok ⟨n + before.length, n + before.length + word.length, .order⟩
        ⟨n + before.length + word.length, after⟩ := by
  have hchars := isWordChar_of_keyword hname
  obtain ⟨x, xs, rfl⟩ := List.exists_cons_of_ne_nil (ne_nil_of_keyword hname)
  have hx := Grammar.isSpace_eq_false_of_isWordChar (hchars x List.mem_cons_self).1
  have hstop : ∀ y ∈ after.head?, grammar.isWordChar y = false := by
    intro y hy
    simp [Grammar.isWordChar, hafter y (List.mem_of_mem_head? hy)]
  -- No white space is forbidden.
  have hallowed : ∀ y ∈ before, grammar.forbids y = false := by
    intro y hy
    rw [Bool.eq_false_iff]
    intro hcomma
    obtain rfl := forbids_iff.1 hcomma
    cases hbefore _ hy
  rw [List.append_assoc, List.cons_append, Lexer.readToken_skip hbefore hallowed hx]
  have hkeyword : TokenKind.order.keyword? = some (Text.keyword (String.ofList (x :: xs))) :=
    congrArg some hname.symm
  exact Lexer.readToken_of_keyword? rfl hkeyword (fun y hy => (hchars y hy).2) hstop

/-- What is left behind the only token of a rule is white space. -/
theorem Grammar.tokensFrom_eq_singleton_iff {g : Grammar} :
    g.tokensFrom c = .ok [t] ↔
      c.hasNext ∧ ∃ c', Lexer.nextToken g c = .ok t c' ∧ c'.hasNext = false := by
  have hnil (c : Cursor) (h : g.tokensFrom c = .ok []) : c.hasNext = false := by
    rw [Bool.eq_false_iff]
    intro hc
    cases hnext : Lexer.nextToken g c with
    | error e c' => cases (tokensFrom_of_error hc hnext).symm.trans h
    | ok t c' =>
      obtain ⟨ts, -, hts⟩ := map_eq_ok_iff.1 ((tokensFrom_of_nextToken hc hnext).symm.trans h)
      cases hts
  constructor
  · intro h
    by_cases hc : c.hasNext
    · cases hnext : Lexer.nextToken g c with
      | error e c' => cases (tokensFrom_of_error hc hnext).symm.trans h
      | ok t' c' =>
        obtain ⟨ts, hts, hcons⟩ := map_eq_ok_iff.1 ((tokensFrom_of_nextToken hc hnext).symm.trans h)
        obtain ⟨rfl, rfl⟩ := List.cons.inj hcons
        exact ⟨hc, c', rfl, hnil c' hts⟩
    · cases (tokensFrom_of_not_hasNext (Bool.eq_false_iff.2 hc)).symm.trans h
  · rintro ⟨hc, c', hnext, hc'⟩
    rw [tokensFrom_of_nextToken hc hnext, tokensFrom_of_not_hasNext hc']
    rfl

/-- A rule consists of the ordering token exactly if it spells the order of version strings. -/
theorem exists_isLoneOrder_iff : (∃ t, IsLoneOrder rule t) ↔ SpellsOrder rule := by
  constructor
  · rintro ⟨t, htokens, ht⟩
    obtain ⟨-, c', hnext, hc'⟩ := Grammar.tokensFrom_eq_singleton_iff.1 htokens
    obtain ⟨before, word, hpassed, hbefore, hname⟩ :=
      Rank.exists_word_of_readToken (Lexer.readToken_of_nextToken hnext).1 ht
    refine ⟨before, word, c'.rest, hpassed.rest_eq, hbefore, ?_, hname⟩
    simpa [Cursor.hasNext] using hc'
  · rintro ⟨before, word, after, hrule, hbefore, hafter, hname⟩
    have hread := Rank.readToken_of_keyword (n := 0) hbefore hafter hname
    obtain ⟨x, hx⟩ := List.exists_mem_of_ne_nil word (Rank.ne_nil_of_keyword hname)
    have hnext : (⟨0, before ++ word ++ after⟩ : Cursor).hasNext := by
      have hspace :=
        Grammar.isSpace_eq_false_of_isWordChar (Rank.isWordChar_of_keyword hname x hx).1
      refine List.any_eq_true.2 ⟨x, ?_, by rw [hspace, Bool.not_false]⟩
      exact List.mem_append_left after (List.mem_append_right before hx)
    rw [← hrule] at hread hnext
    have hend : (⟨0 + before.length + word.length, after⟩ : Cursor).hasNext = false := by
      simpa [Cursor.hasNext] using hafter
    have htoken := (Lexer.nextToken_of_readToken hread).trans rfl
    exact ⟨_, Grammar.tokensFrom_eq_singleton_iff.2 ⟨hnext, _, htoken, hend⟩, rfl⟩

end VersionRules
