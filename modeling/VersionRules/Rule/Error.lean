import VersionRules.Token.Basic

/-!
# Errors in rules

Reading a rule can fail while it is split into tokens, while the tokens are put into a tree, and
while the tree is given a meaning. An error is a cause and a place: as much as is known of where
in the rule it arose.

## Main definitions

* `Place` — a character, a range of characters, a token, or nothing
* `Place.report` — a message together with its place
* `RuleError.Cause` — what can be wrong with a rule, and `Cause.message` for its wording
* `RuleError` — a cause and a place
-/

namespace VersionRules

/-- Where in a rule an error arose. Characters are counted from zero. -/
inductive Place
  /-- nothing is known -/
  | unknown
  /-- at one character -/
  | char (pos : Nat)
  /-- the characters from `start` up to, and without, `stop` -/
  | range (start stop : Nat)
  /-- a token and its range -/
  | token (t : Token)
  deriving DecidableEq

namespace Place

/-- The first character of a place. -/
def start? : Place → Option Nat
  | unknown => none
  | char pos => some pos
  | range start _ => some start
  | token t => some t.start

/-- The end of the range of a place. -/
def stop? : Place → Option Nat
  | unknown | char _ => none
  | range _ stop => some stop
  | token t => some t.stop

/-- The token at a place. -/
def token? : Place → Option Token
  | token t => some t
  | _ => none

/-- How a range of characters is written. -/
def rangeText (start stop : Nat) : String :=
  "(chars " ++ toString start ++ ":" ++ toString stop ++ ")"

/-- A message together with its place. -/
def report (place : Place) (message : String) : String :=
  match place with
  | unknown => message
  | char pos =>
    "Encountered problem while parsing (char " ++ toString pos ++ "). Message: " ++ message
  | range start stop =>
    "Encountered problem while parsing " ++ rangeText start stop ++ ". Message: " ++ message
  | token t =>
    "Encountered problem with " ++ t.text ++ " " ++ rangeText t.start t.stop ++ ". Message: " ++
      message

end Place

/-- What can be wrong with a rule. -/
inductive RuleError.Cause
  /-- a character that the kind of rule forbids everywhere -/
  | forbiddenCharacter (c : Char)
  /-- a quoted value without its closing quote -/
  | unclosedQuote (quote : Char)
  /-- a token was asked for and only white space is left -/
  | noTokenLeft
  /-- a character that is neither a token nor part of a word -/
  | unknownCharacter (c : Char)
  /-- a word that names nothing allowed in this kind of rule -/
  | unknownWord (word : String)
  /-- a qualifier name without `:` -/
  | missingColon
  /-- a quoted value with the wrong number of words -/
  | quotedWordCount (arity : Nat)
  /-- an unquoted value with too few words -/
  | missingWord (q : Qualifier)
  /-- a list of words that is no value of its qualifier -/
  | badValue (e : Qualifier.ValueError)
  /-- a token that no rule starts with -/
  | badStart (type : TokenType)
  /-- a token followed by one, or by the end of the rule, that must not follow it -/
  | badNeighbour (token : Token) (next : Option Token)
  /-- parentheses that are never closed -/
  | unclosedParens (count : Nat)
  /-- a closing parenthesis that closes nothing -/
  | strayParen
  /-- parentheses around nothing -/
  | emptyParens
  /-- a token that joins nothing was used as an operator -/
  | noPriority
  /-- an operator that cannot be put anywhere -/
  | misplacedOperator
  /-- a rule without tokens -/
  | emptyRule
  /-- a place in the tree that belongs to no token -/
  | noToken
  /-- something other than a condition where a condition is required -/
  | notACondition
  /-- something other than an order where an order is required -/
  | notAnOrder
  /-- a token that no rank rule has at its top -/
  | notARank
  /-- the order of version strings was given before the last rank rule -/
  | orderNotLast
  deriving DecidableEq

/-- The wording of each cause. -/
def RuleError.Cause.message : RuleError.Cause → String
  | forbiddenCharacter c => "Character '" ++ c.toString ++ "' is not allowed."
  | unclosedQuote quote => "Reached the end of input without ending quote " ++ quote.toString
  | noTokenLeft => "Just whitespace remaining. No next token available."
  | unknownCharacter c => "Unrecognized character '" ++ c.toString ++ "'."
  | unknownWord word => "Unrecognized word '" ++ word ++ "'."
  | missingColon => "Could not find ':' after parsing Qualifier."
  | quotedWordCount arity =>
    "Quoted string should have exactly " ++ toString arity ++ " amount of words."
  | missingWord q => "Qualifier " ++ q.name ++ " requires " ++ toString q.arity ++ " word/s."
  | badValue e => e.message
  | badStart type => "A rule can't start with " ++ type.text ++ "."
  | badNeighbour token (some next) =>
    "'" ++ next.text ++ "' is not allowed after '" ++ token.text ++ "'."
  | badNeighbour token none => "end of rule is not allowed after '" ++ token.text ++ "'."
  | unclosedParens count =>
    "Amount of parentheses do not match. Expecting another " ++ toString count ++ "."
  | strayParen => "Illegal ')' placement."
  | emptyParens => "Empty parentheses."
  | noPriority => "Token has no operator priority."
  | misplacedOperator => "Operator has no place in the tree."
  | emptyRule => "Empty rule is not allowed."
  | noToken => "Unexpected node without token in rule."
  | notACondition => "Only qualifiers joined by AND, OR or ',' are allowed here."
  | notAnOrder => "An ordering such as SUFFIX-VERSION is required here."
  | notARank => "Rank can't start with this token."
  | orderNotLast => "SUFFIX-VERSION is not the last rank."

/-- An error in a rule: its cause and its place. -/
structure RuleError where
  cause : RuleError.Cause
  place : Place
  deriving DecidableEq

namespace RuleError

/-- The wording of an error without its place. -/
def message (e : RuleError) : String :=
  e.cause.message

/-- The full text of an error. -/
def text (e : RuleError) : String :=
  e.place.report e.message

/-- An error about a token. -/
def atToken (cause : Cause) (t : Token) : RuleError :=
  ⟨cause, .token t⟩

end RuleError

end VersionRules
