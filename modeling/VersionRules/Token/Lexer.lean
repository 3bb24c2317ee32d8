import VersionRules.Rule.Error
import VersionRules.Token.Grammar

/-!
# Reading tokens

A reader starts at a cursor and ends at one, whether it succeeds or fails, so that reading can go
on after an error.

## Main definitions

* `Cursor` — the characters still to be read, and how many were read before
* `Lexer` — readers of a part of a rule
* `Lexer.nextToken` — reads one token
* `Lexer.next?` — reads one token unless only white space is left
-/

namespace VersionRules

/-- The characters of a rule still to be read, and the number of those read before. -/
structure Cursor where
  pos : Nat
  rest : List Char

namespace Cursor

/-- The beginning of a rule. -/
def ofRule (rule : String) : Cursor :=
  ⟨0, rule.toList⟩

/-- The cursor `n` characters further on. -/
def skip (c : Cursor) (n : Nat) : Cursor :=
  ⟨c.pos + n, c.rest.drop n⟩

/-- Whether anything other than white space is left. -/
def hasNext (c : Cursor) : Bool :=
  c.rest.any fun x => !Text.isSpace x

end Cursor

/-- Readers of a part of a rule. Success and failure both tell where reading stopped. -/
abbrev Lexer (α : Type) : Type :=
  EStateM RuleError Cursor α

namespace Lexer

variable (g : Grammar)

/-- The position of the cursor. -/
def position : Lexer Nat := fun c =>
  .ok c.pos c

/-- The next character. -/
def peek : Lexer (Option Char) := fun c =>
  .ok c.rest.head? c

/-- Fails about the characters from `start` up to the cursor. -/
def failFrom {α : Type} (start : Nat) (cause : RuleError.Cause) : Lexer α := fun c =>
  .error ⟨cause, .range start c.pos⟩ c

/-- Reads characters as long as they satisfy `p`. A forbidden one among them is an error, and is
not passed. -/
def readWhile (p : Char → Bool) : Lexer (List Char) := fun c =>
  let run := c.rest.takeWhile fun x => p x && !g.forbids x
  let after := c.skip run.length
  match after.rest with
  | x :: _ =>
    if p x then .error ⟨.forbiddenCharacter x, .char after.pos⟩ after else .ok run after
  | [] => .ok run after

/-- Passes the next character, if there is one and it is not forbidden. -/
def advance : Lexer Unit := fun c =>
  match c.rest with
  | x :: rest =>
    if g.forbids x then .error ⟨.forbiddenCharacter x, .char c.pos⟩ c else .ok () ⟨c.pos + 1, rest⟩
  | [] => .ok () c

/-- Passes white space. -/
def skipSpace : Lexer Unit := do
  let _ ← readWhile g Text.isSpace

/-- Reads the characters of a word, of which there may be none. -/
def readWord : Lexer (List Char) :=
  readWhile g g.isWordChar

/-- Reads a quoted text, the cursor being at its opening quote, and gives what stands between the
quotes. -/
def readQuoted (quote : Char) (start : Nat) : Lexer (List Char) := do
  advance g
  let text ← readWhile g (· != quote)
  match ← peek with
  | none => failFrom start (.unclosedQuote quote)
  | some _ =>
    advance g
    return text

/-- Reads `count` unquoted words of a value. -/
def readWords (q : Qualifier) (start : Nat) : Nat → Lexer (List String)
  | 0 => return []
  | count + 1 => do
    skipSpace g
    match ← readWord g with
    | [] => failFrom start (.missingWord q)
    | word => return String.ofList word :: (← readWords q start count)

/-- Reads the value of a qualifier, from the colon on. -/
def readValue (q : Qualifier) (start : Nat) : Lexer (List String) := do
  skipSpace g
  if (← peek) = some ':' then
    advance g
    skipSpace g
    match (← peek).filter Grammar.isQuote with
    | some quote =>
      -- A quoted value of one word may contain spaces, so counting comes after splitting.
      let words := q.splitValue (← readQuoted g quote start)
      if words.length = q.arity then return words else failFrom start (.quotedWordCount q.arity)
    | none => readWords g q start q.arity
  else
    failFrom start .missingColon

/-- Reads a token that is a single character. -/
def readCharToken (c : Char) (start : Nat) : Lexer TokenKind :=
  match g.charToken? c with
  | some kind => do
    advance g
    return kind
  | none => do
    advance g
    failFrom start (.unknownCharacter c)

/-- Reads a token that begins with a word, the cursor being behind the word. -/
def readWordToken (word : String) (start : Nat) : Lexer TokenKind :=
  match g.wordToken? word with
  | some kind => return kind
  | none =>
    match g.qualifier? word with
    | some q => return .qualifier q (← readValue g q start)
    | none => failFrom start (.unknownWord word)

/-- Reads a token without checking its value. -/
def readToken : Lexer Token := do
  let before ← position
  skipSpace g
  match ← peek with
  | none => failFrom before .noTokenLeft
  | some c =>
    let start ← position
    let kind ← match ← readWord g with
      -- No word begins here, so the character has to be a token by itself.
      | [] => readCharToken g c start
      | word => readWordToken g (String.ofList word) start
    return ⟨start, ← position, kind⟩

/-- Accepts a token unless it is a qualifier with a value that the qualifier does not admit. -/
def checkValue (t : Token) : Except RuleError Token :=
  match t.kind with
  | .qualifier q words =>
    match q.validate words with
    | .ok () => .ok t
    | .error e => .error (.atToken (.badValue e) t)
  | _ => .ok t

/-- Reads one token. -/
def nextToken : Lexer Token := do
  match checkValue (← readToken g) with
  | .ok t => return t
  | .error e => throw e

/-- Reads one token unless only white space is left. -/
def next? : Lexer (Option Token) := fun c =>
  if c.hasNext then (some <$> nextToken g) c else .ok none c

end Lexer

end VersionRules
