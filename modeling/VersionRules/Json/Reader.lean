import VersionRules.Json.Basic
import VersionRules.Json.Escaped
import VersionRules.Json.Number

/-!
# Reading JSON

A text is split into lexemes, and these are put together with a stack of the arrays and objects
that are still open. Reading is strict: no comments, no trailing commas, no text behind the value.

## Main definitions

* `Json.Lexeme`, `Json.lexemes?` — the lexemes of a text
* `Json.Frame`, `Json.Stage` — an open array or object, and what has to follow
* `Json.Stage.step` — what a lexeme leads to
* `Json.read?` — the value that a text denotes, with its strings as they are written
* `Json.readStrict?` — the same with decoded strings, numbers within double precision, and a
  bounded nesting
-/

namespace VersionRules.Json

/-- The lexemes of JSON. -/
inductive Lexeme
  | beginArray
  | endArray
  | beginObject
  | endObject
  | comma
  | colon
  | text (s : Escaped)
  | number (literal : String)
  | bool (value : Bool)
  | null
  deriving DecidableEq

/-- The white space of JSON. -/
def isBlank (c : Char) : Bool :=
  c == ' ' || c == '\t' || c == '\n' || c == '\r'

/-- The lexemes that are one character. -/
def charLexeme? : Char → Option Lexeme
  | '[' => some .beginArray
  | ']' => some .endArray
  | '\x7b' => some .beginObject
  | '\x7d' => some .endObject
  | ',' => some .comma
  | ':' => some .colon
  | _ => none

/-- The lexeme that a run of letters is. -/
def nameLexeme? (name : List Char) : Option Lexeme :=
  if name = "true".toList then some (.bool true)
  else if name = "false".toList then some (.bool false)
  else if name = "null".toList then some .null
  else none

/-- The lexeme that a run of the characters of numbers is. -/
def numberLexeme? (literal : List Char) : Option Lexeme :=
  (Number.ofChars? literal).map fun _ => .number (String.ofList literal)

/-- The lexemes of a text. A run of letters, or of the characters of numbers, is one lexeme. -/
def lexemes? : List Char → Option (List Lexeme)
  | [] => some []
  | c :: cs =>
    if isBlank c then lexemes? cs
    else
      match charLexeme? c with
      | some lexeme => (lexemes? cs).map (lexeme :: ·)
      | none =>
        if c = '"' then
          match _h : Escaped.read? cs with
          | some (s, rest) => (lexemes? rest).map (.text s :: ·)
          | none => none
        -- Runs are taken whole, so `nullnull` and `1-2` are one lexeme each, and no value.
        else if c.isAlpha then do
          let lexeme ← nameLexeme? (c :: cs.takeWhile Char.isAlpha)
          return lexeme :: (← lexemes? (cs.dropWhile Char.isAlpha))
        else do
          let lexeme ← numberLexeme? (c :: cs.takeWhile Number.isNumberChar)
          return lexeme :: (← lexemes? (cs.dropWhile Number.isNumberChar))
termination_by cs => cs.length
decreasing_by
  all_goals simp only [List.length_cons]
  · omega
  · omega
  · have := Escaped.length_of_read? ‹_›
    omega
  · have : (cs.dropWhile Char.isAlpha).length ≤ cs.length := (List.dropWhile_sublist _).length_le
    omega
  · have : (cs.dropWhile Number.isNumberChar).length ≤ cs.length :=
      (List.dropWhile_sublist _).length_le
    omega

/-- The type of values as they are written. -/
abbrev Written : Type :=
  Json Escaped

/-- An array or an object that is still open: what it holds so far, the last first. -/
inductive Frame where
  | items (done : List Written)
  /-- an object with the key of the value that is being read -/
  | member (done : List (Escaped × Written)) (key : Escaped)

/-- What has to follow in a text. -/
inductive Stage where
  /-- a value -/
  | value (stack : List Frame)
  /-- the first item of an array, or its end -/
  | firstItem (stack : List Frame)
  /-- the first key of an object, or its end -/
  | firstKey (stack : List Frame)
  /-- a key -/
  | key (done : List (Escaped × Written)) (stack : List Frame)
  /-- the colon behind a key -/
  | colon (done : List (Escaped × Written)) (key : Escaped) (stack : List Frame)
  /-- whatever can follow a complete value -/
  | after (v : Written) (stack : List Frame)

namespace Stage

/-- Begins a value. -/
def begin (stack : List Frame) : Lexeme → Option Stage
  | .beginArray => some (firstItem stack)
  | .beginObject => some (firstKey stack)
  | .text s => some (after (.string s) stack)
  | .number literal => some (after (.number literal) stack)
  | .bool b => some (after (.bool b) stack)
  | .null => some (after .null stack)
  | .endArray | .endObject | .comma | .colon => none

/-- What a lexeme leads to, unless it cannot stand there. -/
def step : Stage → Lexeme → Option Stage
  | value stack, lexeme => begin stack lexeme
  | firstItem stack, .endArray => some (after (.array []) stack)
  | firstItem stack, lexeme => begin (.items [] :: stack) lexeme
  | firstKey stack, .endObject => some (after (.object []) stack)
  | firstKey stack, .text s => some (colon [] s stack)
  | firstKey _, _ => none
  | key done stack, .text s => some (colon done s stack)
  | key _ _, _ => none
  | colon done s stack, .colon => some (value (.member done s :: stack))
  | colon _ _ _, _ => none
  | after v (.items done :: stack), .comma => some (value (.items (v :: done) :: stack))
  | after v (.items done :: stack), .endArray =>
    some (after (.array (v :: done).reverse) stack)
  | after v (.member done s :: stack), .comma => some (key ((s, v) :: done) stack)
  | after v (.member done s :: stack), .endObject =>
    some (after (.object ((s, v) :: done).reverse) stack)
  | after _ _, _ => none

/-- The value that has been read, if nothing is open any more. -/
def result? : Stage → Option Written
  | after v [] => some v
  | _ => none

end Stage

/-- The value that a text denotes, with its strings as they are written. -/
def read? (text : String) : Option Written := do
  let lexemes ← lexemes? text.toList
  let stage ← lexemes.foldlM Stage.step (.value [])
  stage.result?

/-- How deep arrays and objects may be nested in a document that is read as a whole. -/
def maxDepth : Nat :=
  127

/-- Whether a number is within double precision. -/
def acceptsNumber (literal : String) : Bool :=
  (Number.ofChars? literal.toList).any Number.inRange

/-- The value that a text denotes, unless a string is no text, a number is out of range, or arrays
and objects are nested too deep. -/
def readStrict? (text : String) : Option (Json String) := do
  let written ← read? text
  if written.depth ≤ maxDepth then written.decode? Escaped.decode? acceptsNumber else none

end VersionRules.Json
