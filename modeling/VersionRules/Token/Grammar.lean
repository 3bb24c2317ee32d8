import VersionRules.Token.Basic

/-!
# Grammars of rules

A grammar says which types of token a kind of rule is made of, and which characters it forbids
everywhere, also inside quotes. Whatever a grammar leaves out is an ordinary part of words: a comma
ends a word only where commas are tokens.

## Main definitions

* `Grammar` — the types of token in a kind of rule, and its forbidden characters
* `Grammar.isWordChar` — the characters of words
* `Grammar.charToken?`, `Grammar.wordToken?` — tokens that are one character or one word
* `Grammar.qualifier?` — the words that a qualifier term begins with
-/

namespace VersionRules

/-- The types of token in a kind of rule, and the characters that are forbidden in it. -/
structure Grammar where
  allowed : List TokenType
  forbidden : List Char

namespace Grammar

/-- All types of token, and no forbidden character. -/
def full : Grammar :=
  ⟨TokenType.all, []⟩

/-- Whether a type of token occurs in rules of this kind. -/
def allows (g : Grammar) (type : TokenType) : Bool :=
  g.allowed.contains type

/-- Whether a character is forbidden in rules of this kind. -/
def forbids (g : Grammar) (c : Char) : Bool :=
  g.forbidden.contains c

/-- The token that a character is by itself. -/
def charToken? (g : Grammar) : Char → Option TokenKind
  | '(' => if g.allows .lparen then some .lparen else none
  | ')' => if g.allows .rparen then some .rparen else none
  | ',' => if g.allows .comma then some .comma else none
  | _ => none

/-- The quotes that a value can stand in. -/
def isQuote (c : Char) : Bool :=
  c == '"' || c == '\''

/-- The characters that end a word besides white space: quotes, the colon where there are
qualifiers, and single-character tokens. -/
def isSpecial (g : Grammar) (c : Char) : Bool :=
  isQuote c || (c == ':' && g.allows .qualifier) || (g.charToken? c).isSome

/-- The characters of words. -/
def isWordChar (g : Grammar) (c : Char) : Bool :=
  !Text.isSpace c && !g.isSpecial c

/-- The token that a word is by itself: `SORT_BY`, a connective or an order. -/
def wordToken? (g : Grammar) (word : String) : Option TokenKind :=
  if g.allows .sortBy && Text.keyword word == TokenKind.sortByName then
    some .sortBy
  else
    (if g.allows .logic then (Connective.ofName? word).map .logic else none) <|>
      (if g.allows .order then TokenKind.orderOfName? word else none)

/-- The qualifier that a word names. -/
def qualifier? (g : Grammar) (word : String) : Option Qualifier :=
  if g.allows .qualifier then Qualifier.ofName? word else none

end Grammar

end VersionRules
