import VersionRules.Proofs.Token.Types
import VersionRules.Proofs.Qualifier.Words

/-!
# Names in rules

A word of a rule names a keyword or a qualifier if it has the same canonical form. No two names have
one canonical form, so it does not matter in which order they are looked up, and in a grammar with
more types of token a word names what it named before. No name has a mark in it or white space, even
if it is written with letters beyond ASCII: whatever names something is a single word in every
grammar.

## Main definitions

* `TokenKind.keyword?`, `TokenKind.char?` — the keyword or the character that a token is written
  with

## Main results

* `Grammar.isWordChar_of_isPlain` — plain characters end no word
* `Grammar.charToken?_eq_some_iff` — what a character is by itself
* `Grammar.wordToken?_eq_some_iff`, `Grammar.qualifier?_eq_some_iff` — what a word names
* `Grammar.wordToken?_eq_none_of_name` — the name of a qualifier is no keyword
* `Grammar.isPlain_of_wordToken?`, `Grammar.isPlain_of_qualifier?` — names are plain
* `Lexer.readToken_of_keyword?`, `Lexer.readWordToken_of_name` — what is read from a name
-/

namespace VersionRules

variable {g : Grammar} {x : Char} {word : String} {kind : TokenKind} {q : Qualifier}
  {c : Connective}

/-! ### Keywords and characters -/

namespace TokenKind

/-- The character that a token is, if it is a single one. -/
def char? : TokenKind → Option Char
  | lparen => some '('
  | rparen => some ')'
  | comma => some ','
  | qualifier _ _ | order | logic _ | sortBy => none

/-- The keyword that a token is written with, if it is written with one. -/
def keyword? : TokenKind → Option String
  | sortBy => some sortByName
  | logic c => some c.name
  | order => some orderName
  | qualifier _ _ | lparen | rparen | comma => none

theorem isPlain_of_keyword? {name : String} (h : kind.keyword? = some name) :
    ∀ x ∈ name.toList, Text.isPlain x := by
  refine List.all_eq_true.1 ?_
  cases kind with
  | qualifier | lparen | rparen | comma => cases h
  | sortBy | order =>
    obtain rfl := Option.some.inj h
    rfl
  | logic c =>
    obtain rfl := Option.some.inj h
    cases c <;> rfl

theorem keyword?_ne_empty (kind : TokenKind) : kind.keyword? ≠ some "" := by
  cases kind with
  | qualifier | lparen | rparen | comma => nofun
  | sortBy | order => decide
  | logic c => cases c <;> decide

/-- No keyword is the name of a qualifier. -/
theorem keyword?_ne_name (kind : TokenKind) (q : Qualifier) : kind.keyword? ≠ some q.name := by
  cases kind with
  | qualifier | lparen | rparen | comma => nofun
  | sortBy | order => cases q <;> decide
  | logic c => cases c <;> cases q <;> decide

end TokenKind

theorem Qualifier.isPlain_name (q : Qualifier) : ∀ x ∈ q.name.toList, Text.isPlain x := by
  refine List.all_eq_true.1 ?_
  cases q <;> rfl

/-! ### What a word names -/

theorem Connective.ofName?_eq_some_iff : ofName? word = some c ↔ c.name = Text.keyword word := by
  constructor
  · intro h
    simpa using List.find?_some h
  · intro h
    rw [ofName?, ← h]
    cases c <;> decide

theorem Qualifier.ofName?_eq_some_iff : ofName? word = some q ↔ q.name = Text.keyword word := by
  constructor
  · intro h
    simpa using List.find?_some h
  · intro h
    rw [ofName?, ← h]
    cases q <;> decide

namespace Grammar

/-- Plain characters end no word. -/
theorem isWordChar_of_isPlain (h : Text.isPlain x) : g.isWordChar x := by
  obtain ⟨hspace, hmarks⟩ := Text.isPlain_iff.1 h
  simp only [Text.marks, List.mem_cons, List.not_mem_nil, or_false, not_or] at hmarks
  simp [isWordChar, isSpecial, isQuote, charToken?, hspace, hmarks]

/-- A character is a token by itself if it is the character of the token. -/
theorem charToken?_eq_some_iff :
    g.charToken? x = some kind ↔ g.allows kind.type ∧ kind.char? = some x := by
  constructor
  · intro h
    refine ⟨allows_of_charToken? h, ?_⟩
    unfold charToken? at h
    split at h
    case h_4 => cases h
    all_goals
      obtain ⟨-, hkind⟩ := Option.ite_none_right_eq_some.1 h
      obtain rfl := Option.some.inj hkind
      rfl
  · rintro ⟨hallows, hchar⟩
    cases kind with
    | qualifier | order | logic | sortBy => cases hchar
    | lparen | rparen | comma =>
      obtain rfl := Option.some.inj hchar
      exact if_pos hallows

/-- A word is a token by itself if it spells the keyword of the token. -/
theorem wordToken?_eq_some_iff :
    g.wordToken? word = some kind ↔
      g.allows kind.type ∧ kind.keyword? = some (Text.keyword word) := by
  constructor
  · intro h
    refine ⟨allows_of_wordToken? h, ?_⟩
    unfold wordToken? at h
    split at h
    · next hsort =>
      obtain rfl := Option.some.inj h
      rw [beq_iff_eq.1 (Bool.and_eq_true_iff.1 hsort).2]
      rfl
    · simp only [Option.orElse_eq_orElse, Option.orElse_eq_or, Option.or_eq_some_iff] at h
      rcases h with h | ⟨-, h⟩
      · obtain ⟨-, hlogic⟩ := Option.ite_none_right_eq_some.1 h
        obtain ⟨c, hc, rfl⟩ := Option.map_eq_some_iff.1 hlogic
        exact congrArg some (Connective.ofName?_eq_some_iff.1 hc)
      · obtain ⟨-, horder⟩ := Option.ite_none_right_eq_some.1 h
        obtain ⟨hname, horder⟩ := Option.ite_none_right_eq_some.1 horder
        obtain rfl := Option.some.inj horder
        exact congrArg some (beq_iff_eq.1 hname)
  · rintro ⟨hallows, hname⟩
    unfold wordToken?
    cases kind with
    | qualifier | lparen | rparen | comma => cases hname
    | sortBy =>
      have hkeyword : Text.keyword word = TokenKind.sortByName := (Option.some.inj hname).symm
      have hallows : g.allows .sortBy := hallows
      rw [hkeyword, hallows]
      rfl
    | logic c =>
      have hkeyword : c.name = Text.keyword word := Option.some.inj hname
      have hallows : g.allows .logic := hallows
      have hsort : (c.name == TokenKind.sortByName) = false := by cases c <;> rfl
      rw [Connective.ofName?_eq_some_iff.2 hkeyword, ← hkeyword, hsort, hallows]
      simp
    | order =>
      have hkeyword : TokenKind.orderName = Text.keyword word := Option.some.inj hname
      have hallows : g.allows .order := hallows
      have hsort : (TokenKind.orderName == TokenKind.sortByName) = false := rfl
      have hlogic : Connective.ofName? word = none := by
        rw [Connective.ofName?, ← hkeyword]
        rfl
      rw [hlogic, TokenKind.orderOfName?, ← hkeyword, hsort, hallows]
      simp

theorem qualifier?_eq_some_iff :
    g.qualifier? word = some q ↔ g.allows .qualifier ∧ q.name = Text.keyword word := by
  rw [qualifier?, Option.ite_none_right_eq_some, Qualifier.ofName?_eq_some_iff]

theorem wordToken?_eq_none_of_name (h : q.name = Text.keyword word) : g.wordToken? word = none := by
  refine Option.eq_none_iff_forall_ne_some.2 fun kind hkind => ?_
  exact kind.keyword?_ne_name q (h ▸ (wordToken?_eq_some_iff.1 hkind).2)

/-! ### Names are plain -/

theorem isPlain_of_wordToken? (h : g.wordToken? word = some kind) :
    ∀ x ∈ word.toList, Text.isPlain x :=
  Text.isPlain_of_keyword (TokenKind.isPlain_of_keyword? (wordToken?_eq_some_iff.1 h).2)

theorem isPlain_of_qualifier? (h : g.qualifier? word = some q) :
    ∀ x ∈ word.toList, Text.isPlain x :=
  Text.isPlain_of_keyword ((qualifier?_eq_some_iff.1 h).2 ▸ q.isPlain_name)

end Grammar

/-! ### Reading names -/

namespace Lexer

/-- A keyword is read as its token, however it is spelled. -/
theorem readToken_of_keyword? {n : Nat} {word rest : List Char}
    (hallows : g.allows kind.type)
    (hname : kind.keyword? = some (Text.keyword (String.ofList word)))
    (hallowed : ∀ x ∈ word, g.forbids x = false)
    (hrest : ∀ x ∈ rest.head?, g.isWordChar x = false) :
    readToken g ⟨n, word ++ rest⟩ =
      .ok ⟨n, n + word.length, kind⟩ ⟨n + word.length, rest⟩ := by
  have hkind := Grammar.wordToken?_eq_some_iff.2 ⟨hallows, hname⟩
  have hplain := Grammar.isPlain_of_wordToken? hkind
  rw [String.toList_ofList] at hplain
  have hne : word ≠ [] := by
    rintro rfl
    exact kind.keyword?_ne_empty hname
  rw [readToken_append hne (fun x hx => Grammar.isWordChar_of_isPlain (hplain x hx)) hallowed hrest,
    readWordToken, hkind]
  rfl

/-- A word that names a qualifier begins a term. -/
theorem readWordToken_of_name {start : Nat} {words : List String} {d d' : Cursor}
    (hallows : g.allows .qualifier) (hname : q.name = Text.keyword word)
    (hvalue : readValue g q start d = .ok words d') :
    readWordToken g word start d = .ok (.qualifier q words) d' := by
  rw [readWordToken, Grammar.wordToken?_eq_none_of_name hname,
    Grammar.qualifier?_eq_some_iff.2 ⟨hallows, hname⟩]
  exact bind_of_ok hvalue

/-- A token begins with a word that is plain. -/
theorem isPlain_of_readWordToken {start : Nat} {d d' : Cursor}
    (h : readWordToken g word start d = .ok kind d') : ∀ x ∈ word.toList, Text.isPlain x := by
  obtain ⟨hword, -⟩ | ⟨q, words, hq, -⟩ := readWordToken_cases h
  · exact Grammar.isPlain_of_wordToken? hword
  · exact Grammar.isPlain_of_qualifier? hq

end Lexer

end VersionRules
