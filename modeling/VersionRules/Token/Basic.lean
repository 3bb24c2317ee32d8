import VersionRules.Qualifier.Value

/-!
# Tokens of the rule language

A rule is a sequence of tokens: qualifier terms such as `BUILD:1`, the ordering `SUFFIX-VERSION`,
the connectives `AND` and `OR`, parentheses, the comma, and `SORT_BY`.

## Main definitions

* `TokenType` — the seven types of token, without content
* `TokenKind` — a type of token with its content
* `Token` — a kind with the range of characters it was read from
* `Connective.ofName?`, `TokenKind.orderOfName?` — reading keywords without regard to case
* `Token.text` — how a token is printed
-/

namespace VersionRules

/-- The types of token, without content. -/
inductive TokenType
  | qualifier
  | order
  | logic
  | lparen
  | rparen
  | comma
  | sortBy
  deriving DecidableEq

namespace TokenType

/-- All types of token. -/
def all : List TokenType :=
  [qualifier, order, logic, lparen, rparen, comma, sortBy]

/-- How a type of token is named in messages. -/
def text : TokenType → String
  | qualifier => "QUALIFIER"
  | order => "ORDER"
  | logic => "LOGIC"
  | lparen => "'('"
  | rparen => "')'"
  | comma => "','"
  | sortBy => "SORT_BY"

end TokenType

/-- The words that join terms. -/
inductive Connective
  | and
  | or
  deriving DecidableEq

namespace Connective

/-- The canonical name of a connective. -/
def name : Connective → String
  | and => "AND"
  | or => "OR"

/-- A connective is printed in lower case. -/
def text : Connective → String
  | and => "and"
  | or => "or"

/-- The connective that a word names, without regard to case. -/
def ofName? (word : String) : Option Connective :=
  [and, or].find? fun c => c.name == Text.keyword word

end Connective

/-- A token without its place in the rule. -/
inductive TokenKind
  /-- a qualifier and the words of a value -/
  | qualifier (q : Qualifier) (words : List String)
  /-- `SUFFIX-VERSION`: the order of version strings -/
  | order
  /-- `AND` or `OR` -/
  | logic (c : Connective)
  | lparen
  | rparen
  /-- another spelling of `OR` -/
  | comma
  /-- between a condition and the order of the versions that meet it -/
  | sortBy
  deriving DecidableEq

namespace TokenKind

/-- The canonical name of the order of version strings. -/
def orderName : String :=
  "SUFFIX_VERSION"

/-- The canonical name of the word between a condition and an order. -/
def sortByName : String :=
  "SORT_BY"

/-- The order that a word names, without regard to case and with `-` for `_`. -/
def orderOfName? (word : String) : Option TokenKind :=
  if orderName == Text.keyword word then some order else none

/-- The type of a token. -/
def type : TokenKind → TokenType
  | qualifier _ _ => .qualifier
  | order => .order
  | logic _ => .logic
  | lparen => .lparen
  | rparen => .rparen
  | comma => .comma
  | sortBy => .sortBy

/-- How a token is printed: a qualifier term with its words separated by single spaces, and all
else by its name or character. -/
def text : TokenKind → String
  | qualifier q words => q.name ++ ":" ++ " ".intercalate words
  | order => orderName
  | logic c => c.text
  | lparen => "("
  | rparen => ")"
  | comma => ","
  | sortBy => sortByName

end TokenKind

/-- A token and the range of characters it was read from: those from `start` up to, and without,
`stop`, counted from the beginning of the rule. -/
structure Token where
  start : Nat
  stop : Nat
  kind : TokenKind
  deriving DecidableEq

namespace Token

/-- The type of a token. -/
def type (t : Token) : TokenType :=
  t.kind.type

/-- How a token is printed. -/
def text (t : Token) : String :=
  t.kind.text

end Token

end VersionRules
