import VersionRules.Proofs.Except
import VersionRules.Proofs.Token.Locality
import VersionRules.Proofs.Token.Names
import VersionRules.Rule.Filter

/-!
# Grammars with more types of token

What is accepted under a grammar is accepted under one with more types of token, as the same tokens.
More characters end a word there, and more words have a meaning; but names are read whole, since
they are plain, no name has two meanings, and where a word of a value would be cut short, there was
no value. So a query filters the same when it is read with all tokens.

## Main definitions

* `Grammar.Widens` — more types of token, and the same forbidden characters
* `Filter.ofQueryUnder` — a query that is read with the tokens of another kind of rule

## Main results

* `Lexer.readWord_of_widens` — a plain word is read as before
* `Lexer.nextToken_of_widens` — and so is a token
* `Grammar.tokensFrom_of_widens` — and so are all tokens of a rule
* `tokens_of_widened` — rules and queries
-/

namespace VersionRules

variable {g g' : Grammar} {c c' : Cursor} {x : Char} {start count : Nat} {q : Qualifier}
  {words : List String} {word : String} {kind : TokenKind} {t : Token} {ts : List Token}
  {run : List Char}

/-- The second grammar has more types of token and the same forbidden characters. -/
structure Grammar.Widens (g g' : Grammar) : Prop where
  allows {type : TokenType} (h : g.allows type) : g'.allows type
  forbids (x : Char) : g'.forbids x = g.forbids x

namespace Grammar.Widens

/-! ### Names and characters -/

theorem charToken? (h : g.Widens g') (hx : g.charToken? x = some kind) :
    g'.charToken? x = some kind := by
  obtain ⟨hallows, hchar⟩ := charToken?_eq_some_iff.1 hx
  exact charToken?_eq_some_iff.2 ⟨h.allows hallows, hchar⟩

theorem wordToken? (h : g.Widens g') (hword : g.wordToken? word = some kind) :
    g'.wordToken? word = some kind := by
  obtain ⟨hallows, hname⟩ := wordToken?_eq_some_iff.1 hword
  exact wordToken?_eq_some_iff.2 ⟨h.allows hallows, hname⟩

theorem qualifier? (h : g.Widens g') (hword : g.qualifier? word = some q) :
    g'.qualifier? word = some q := by
  obtain ⟨hallows, hname⟩ := qualifier?_eq_some_iff.1 hword
  exact qualifier?_eq_some_iff.2 ⟨h.allows hallows, hname⟩

/-- What ends a word still does. -/
theorem isSpecial (h : g.Widens g') (hx : g.isSpecial x) : g'.isSpecial x := by
  simp only [Grammar.isSpecial, Bool.or_eq_true, Bool.and_eq_true] at hx ⊢
  rcases hx with (hquote | ⟨hcolon, hallows⟩) | htoken
  · exact .inl (.inl hquote)
  · exact .inl (.inr ⟨hcolon, h.allows hallows⟩)
  · obtain ⟨kind, hkind⟩ := Option.isSome_iff_exists.1 htoken
    exact .inr (Option.isSome_iff_exists.2 ⟨kind, h.charToken? hkind⟩)

theorem isWordChar (h : g.Widens g') (hx : g.isWordChar x = false) : g'.isWordChar x = false := by
  simp only [Grammar.isWordChar, Bool.and_eq_false_iff, Bool.not_eq_false'] at hx ⊢
  exact hx.imp_right h.isSpecial

/-! ### Readers that do not ask what a token is -/

open Lexer

theorem advance_eq (h : g.Widens g') : advance g' = advance g := by
  funext c
  simp only [advance, h.forbids]

theorem readWhile_eq (h : g.Widens g') (p : Char → Bool) : readWhile g' p = readWhile g p := by
  funext c
  simp only [readWhile, h.forbids]

theorem skipSpace_eq (h : g.Widens g') : skipSpace g' = skipSpace g := by
  simp only [skipSpace, h.readWhile_eq]

theorem readQuoted_eq (h : g.Widens g') (quote : Char) (start : Nat) :
    readQuoted g' quote start = readQuoted g quote start := by
  simp only [readQuoted, h.readWhile_eq, h.advance_eq]

end Grammar.Widens

namespace Lexer

/-! ### Words -/

/-- A word without marks is read as before. -/
theorem readWord_of_widens (h : g.Widens g') (hrun : ∀ x ∈ run, Text.isPlain x)
    (hread : readWord g c = .ok run c') : readWord g' c = .ok run c' := by
  obtain ⟨hpassed, hchars, hhead⟩ := readWhile_eq_ok hread
  have hread' : readWord g' ⟨c.pos, run ++ c'.rest⟩ = _ :=
    readWhile_append (fun x hx => Grammar.isWordChar_of_isPlain (hrun x hx))
      (fun x hx => (h.forbids x).trans (hchars x hx).2) fun x hx => h.isWordChar (hhead x hx)
  rwa [← hpassed.rest_eq, ← hpassed.pos_eq] at hread'

/-- An unquoted value is read as before, if it is one. -/
theorem readWords_of_widens (h : g.Widens g')
    (hwords : ∀ word ∈ words, ∀ x ∈ word.toList, x ≠ ' ' → Text.isPlain x)
    (hread : readWords g q start count c = .ok words c') :
    readWords g' q start count c = .ok words c' := by
  induction count generalizing c words with
  | zero => exact hread
  | succ count ih =>
    obtain ⟨_, c₁, h₁, hread⟩ := bind_eq_ok.1 hread
    obtain ⟨run, c₂, h₂, hread⟩ := bind_eq_ok.1 hread
    cases run with
    | nil => exact absurd hread failFrom_ne_ok
    | cons x xs =>
      obtain ⟨others, c₃, h₃, hread⟩ := bind_eq_ok.1 hread
      obtain ⟨rfl, rfl⟩ := pure_eq_ok.1 hread
      obtain ⟨hword, hothers⟩ := List.forall_mem_cons.1 hwords
      rw [String.toList_ofList] at hword
      -- An unquoted word has no spaces in it.
      have hplain : ∀ y ∈ x :: xs, Text.isPlain y := by
        intro y hy
        refine hword y hy ?_
        rintro rfl
        cases Grammar.isSpace_eq_false_of_isWordChar ((readWhile_eq_ok h₂).2.1 ' ' hy).1
      rw [readWords, h.skipSpace_eq, bind_of_ok h₁, bind_of_ok (readWord_of_widens h hplain h₂)]
      exact bind_of_ok (ih hothers h₃)

theorem readValue_of_widens (h : g.Widens g')
    (hwords : ∀ word ∈ words, ∀ x ∈ word.toList, x ≠ ' ' → Text.isPlain x)
    (hread : readValue g q start c = .ok words c') : readValue g' q start c = .ok words c' := by
  simp only [readValue, h.skipSpace_eq, h.advance_eq, h.readQuoted_eq] at hread ⊢
  obtain ⟨_, c₁, h₁, hread⟩ := bind_eq_ok.1 hread
  obtain ⟨y, c₂, h₂, hread⟩ := bind_eq_ok.1 hread
  refine (bind_of_ok h₁).trans ((bind_of_ok h₂).trans ?_)
  by_cases hcolon : y = some ':'
  · rw [if_pos hcolon] at hread ⊢
    obtain ⟨_, c₃, h₃, hread⟩ := bind_eq_ok.1 hread
    obtain ⟨_, c₄, h₄, hread⟩ := bind_eq_ok.1 hread
    obtain ⟨z, c₅, h₅, hread⟩ := bind_eq_ok.1 hread
    refine (bind_of_ok h₃).trans ((bind_of_ok h₄).trans ((bind_of_ok h₅).trans ?_))
    cases hquote : z.filter Grammar.isQuote with
    | some quote =>
      rw [hquote] at hread
      exact hread
    | none =>
      rw [hquote] at hread
      exact readWords_of_widens h hwords hread
  · rw [if_neg hcolon] at hread ⊢
    exact hread

/-! ### Tokens -/

theorem readCharToken_of_widens (h : g.Widens g')
    (hread : readCharToken g x start c = .ok kind c') :
    readCharToken g' x start c = .ok kind c' := by
  have hx := charToken?_of_readCharToken hread
  rw [readCharToken, hx] at hread
  rw [readCharToken, h.charToken? hx, h.advance_eq]
  exact hread

/-- What a word begins is read as before, unless it is a term whose value is none. -/
theorem readWordToken_of_widens (h : g.Widens g')
    (hkind : ∀ q words, kind = .qualifier q words → q.validate words = .ok ())
    (hread : readWordToken g word start c = .ok kind c') :
    readWordToken g' word start c = .ok kind c' := by
  rw [readWordToken] at hread ⊢
  cases hword : g.wordToken? word with
  | some kind =>
    rw [hword] at hread
    rw [h.wordToken? hword]
    exact hread
  | none =>
    rw [hword] at hread
    cases hq : g.qualifier? word with
    | none =>
      rw [hq] at hread
      exact absurd hread failFrom_ne_ok
    | some q =>
      rw [hq] at hread
      obtain ⟨words, d, hvalue, hread⟩ := bind_eq_ok.1 hread
      obtain ⟨rfl, rfl⟩ := pure_eq_ok.1 hread
      have hplain : ∀ word ∈ words, ∀ x ∈ word.toList, x ≠ ' ' → Text.isPlain x := by
        intro word hmem
        obtain ⟨i, hadmits⟩ := Qualifier.exists_admits_of_validate (hkind q words rfl) word hmem
        exact Qualifier.isPlain_of_admits hadmits
      -- A word that names a qualifier is not a keyword that was left out.
      rw [Grammar.wordToken?_eq_none_of_name (Grammar.qualifier?_eq_some_iff.1 hq).2,
        h.qualifier? hq]
      exact bind_of_ok (readValue_of_widens h hplain hvalue)

theorem readToken_of_widens (h : g.Widens g')
    (ht : ∀ q words, t.kind = .qualifier q words → q.validate words = .ok ())
    (hread : readToken g c = .ok t c') : readToken g' c = .ok t c' := by
  refine readToken_eq_ok_iff.2 ?_
  cases readToken_eq_ok_iff.1 hread with
  | char hspace hhead hword hkind =>
    exact .char (h.skipSpace_eq ▸ hspace) hhead
      (readWord_of_widens h (List.forall_mem_nil _) hword) (readCharToken_of_widens h hkind)
  | word hspace hhead hword hne hkind =>
    have hplain := isPlain_of_readWordToken hkind
    rw [String.toList_ofList] at hplain
    exact .word (h.skipSpace_eq ▸ hspace) hhead (readWord_of_widens h hplain hword) hne
      (readWordToken_of_widens h ht hkind)

/-- A token that is accepted is accepted where there are more types of token. -/
theorem nextToken_of_widens (h : g.Widens g') (ht : nextToken g c = .ok t c') :
    nextToken g' c = .ok t c' := by
  obtain ⟨hread, hcheck⟩ := readToken_of_nextToken ht
  rw [nextToken_of_readToken (readToken_of_widens h (validate_of_nextToken ht) hread), hcheck]

end Lexer

/-! ### Rules and queries -/

/-- A rule that is accepted is accepted where there are more types of token. -/
theorem Grammar.tokensFrom_of_widens (h : g.Widens g') (hts : g.tokensFrom c = .ok ts) :
    g'.tokensFrom c = .ok ts := by
  fun_induction tokensFrom g c generalizing ts with
  | case1 c hnext t c' ht ih =>
    obtain ⟨others, hothers, rfl⟩ := map_eq_ok_iff.1 hts
    rw [tokensFrom_of_nextToken hnext (Lexer.nextToken_of_widens h ht), ih hothers]
    rfl
  | case2 => cases hts
  | case3 c hnext =>
    obtain rfl := Except.ok.inj hts
    exact tokensFrom_of_not_hasNext (by simpa using hnext)

namespace Filter

/-- Reads a query as a rule of some kind, from which it may have all types of token. -/
def ofQueryUnder (g : Grammar) (query : String) : Except RuleError Filter := do
  let tokens ← g.tokens query
  let arena ← parse tokens
  let condition ← arena.expression.condition
  return ⟨tokens, some arena, condition.holds⟩

theorem ofQuery_eq_ofQueryUnder (query : String) :
    ofQuery (some query) = ofQueryUnder grammar query :=
  rfl

theorem ofQueryUnder_of_widens {query : String} {f : Filter} (h : g.Widens g')
    (hf : ofQueryUnder g query = .ok f) : ofQueryUnder g' query = .ok f := by
  obtain ⟨ts, hts, hf⟩ := bind_eq_ok_iff.1 hf
  exact bind_eq_ok_iff.2 ⟨ts, Grammar.tokensFrom_of_widens h hts, hf⟩

end Filter

/-- **More types of token change no rule that is accepted.** A rule that is split into tokens is
split into the same tokens, at the same places, where more types of token are allowed, whichever
characters are forbidden. A query that is accepted keeps the same candidates, by the same tree, when
it is read with all types of token. -/
theorem tokens_of_widened :
    (∀ allowed allowed' forbidden rule ts, allowed ⊆ allowed' →
        Grammar.tokens ⟨allowed, forbidden⟩ rule = .ok ts →
        Grammar.tokens ⟨allowed', forbidden⟩ rule = .ok ts) ∧
      ∀ query f, Filter.ofQuery (some query) = .ok f → Filter.ofQueryUnder .full query = .ok f := by
  constructor
  · intro allowed allowed' forbidden rule ts hallowed hts
    have hwidens : Grammar.Widens ⟨allowed, forbidden⟩ ⟨allowed', forbidden⟩ :=
      ⟨fun h => List.contains_iff_mem.2 (hallowed (List.contains_iff_mem.1 h)), fun _ => rfl⟩
    exact Grammar.tokensFrom_of_widens hwidens hts
  · intro query f hf
    have hfull : Filter.grammar.Widens .full := by
      refine ⟨fun {type} _ => ?_, fun _ => rfl⟩
      cases type <;> rfl
    exact Filter.ofQueryUnder_of_widens hfull (Filter.ofQuery_eq_ofQueryUnder query ▸ hf)

/-- Terms that are read where a comma is a forbidden character, before and after it is made a token,
and a query in which it is one. -/
theorem tokens_of_widened_comma :
    (∀ type ∈ TokenType.all, Grammar.tokens ⟨[.qualifier, type], [',']⟩ "build:1 type:rpm" =
        .ok [⟨0, 7, .qualifier .build ["1"]⟩, ⟨8, 16, .qualifier .type ["rpm"]⟩]) ∧
      ∃ f, Filter.ofQuery (some "build:1, type:rpm") = .ok f ∧
        Filter.ofQueryUnder .full "build:1, type:rpm" = .ok f := by
  have hterms : Grammar.tokens ⟨[.qualifier], [',']⟩ "build:1 type:rpm" =
      .ok [⟨0, 7, .qualifier .build ["1"]⟩, ⟨8, 16, .qualifier .type ["rpm"]⟩] := by
    decide +kernel
  have hok : (Filter.ofQuery (some "build:1, type:rpm")).isOk := by decide +kernel
  obtain ⟨f, hf⟩ := exists_eq_ok_of_isOk hok
  refine ⟨fun type _ => ?_, f, hf, tokens_of_widened.2 _ f hf⟩
  exact tokens_of_widened.1 _ _ _ _ _ (List.cons_subset_cons _ (List.nil_subset _)) hterms

end VersionRules
