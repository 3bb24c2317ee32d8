import VersionRules.Qualifier.Basic
import VersionRules.Text.Digit
import VersionRules.Text.Space

/-!
# Qualifier values

A value of a qualifier is a list of words. Each word has to fit a pattern that depends on the
qualifier and on the place of the word, so that a rule naming an impossible value is rejected
instead of never matching.

## Main definitions

* `Quality` — the eight quality levels
* `Qualifier.admits` — the pattern for the word at one place of a value
* `Qualifier.splitValue` — the words of a value that is written as one text
* `Qualifier.validate` — the arity and the pattern of every word
* `Qualifier.sameWord` — when two words of a value count as the same
-/

namespace VersionRules

/-- The quality levels. -/
inductive Quality
  | new
  | tested
  | verified
  | released
  | deprecated
  | blacklisted
  | deleted
  | temporary
  deriving DecidableEq

namespace Quality

/-- All quality levels. -/
def all : List Quality :=
  [new, tested, verified, released, deprecated, blacklisted, deleted, temporary]

/-- The canonical spelling of a quality level. -/
def name : Quality → String
  | new => "NEW"
  | tested => "TESTED"
  | verified => "VERIFIED"
  | released => "RELEASED"
  | deprecated => "DEPRECATED"
  | blacklisted => "BLACKLISTED"
  | deleted => "DELETED"
  | temporary => "TEMPORARY"

/-- The quality level that a text spells in any case. -/
def ofText? (text : String) : Option Quality :=
  all.find? fun level => level.name == Text.upper text

end Quality

namespace Qualifier

/-- ASCII letters and digits, `.`, `_` and `-`. -/
def isWordChar (c : Char) : Bool :=
  c.isAlphanum || c == '.' || c == '_' || c == '-'

/-- Word characters, one at least. -/
def isWord (cs : List Char) : Bool :=
  !cs.isEmpty && cs.all isWordChar

/-- Word characters that begin with a letter or a digit. -/
def isName : List Char → Bool
  | [] => false
  | c :: cs => c.isAlphanum && cs.all isWordChar

/-- ASCII letters and digits, one at least. -/
def isIdentifier (cs : List Char) : Bool :=
  !cs.isEmpty && cs.all Char.isAlphanum

/-- Runs of decimal digits with single dots between them. -/
def isNumericVersion (cs : List Char) : Bool :=
  (cs.splitOn '.').all fun run => !run.isEmpty && run.all Text.isDecimalDigit

/-- Words with single spaces between them. -/
def isPhrase (cs : List Char) : Bool :=
  (cs.splitOn ' ').all isWord

/-- Whether `word` can stand at place `i` of a value. -/
def admits (q : Qualifier) (i : Nat) (word : String) : Bool :=
  match q, i with
  | product, _ => isName word.toList
  | version, 0 | milestone, 0 => isName word.toList
  | version, 1 | milestone, 1 => isNumericVersion word.toList
  | version, _ => false
  | milestone, _ => isWord word.toList
  | build, _ | groupBuild, _ => isIdentifier word.toList
  | groupVersion, _ => isPhrase word.toList
  | quality, _ => (Quality.ofText? word).isSome
  | type, _ => isWord word.toList

/-- The words of a value that is written as one text. A value of one word is the whole text without
the white space at its ends, so it keeps inner spaces. -/
def splitValue (q : Qualifier) (text : List Char) : List String :=
  if q.arity = 1 then [String.ofList (Text.trim text)] else (Text.words text).map String.ofList

/-- Why a list of words is no value of a qualifier. -/
inductive ValueError
  | wordCount (q : Qualifier) (found : Nat)
  | badWord (q : Qualifier) (word : String)
  deriving DecidableEq

/-- The text of a value error. -/
def ValueError.message : ValueError → String
  | wordCount q found =>
    "Qualifier " ++ q.name ++ " requires " ++ toString q.arity ++ " word/s but got " ++
      toString found ++ "."
  | badWord q word => "Value '" ++ word ++ "' is not valid for qualifier " ++ q.name ++ "."

/-- The first word, from place `i` on, that cannot stand at its place. -/
def firstBadWord? (q : Qualifier) : Nat → List String → Option String
  | _, [] => none
  | i, word :: words => if q.admits i word then q.firstBadWord? (i + 1) words else some word

/-- Checks that `words` is a value of `q`: first the number of words, then each word. -/
def validate (q : Qualifier) (words : List String) : Except ValueError Unit :=
  if words.length ≠ q.arity then
    .error (.wordCount q words.length)
  else
    match q.firstBadWord? 0 words with
    | some word => .error (.badWord q word)
    | none => .ok ()

/-- Whether two words of a value count as the same: the case of ASCII letters does not matter for
a quality level, and all else must be equal. -/
def sameWord (q : Qualifier) (a b : String) : Bool :=
  match q with
  | quality => Text.sameIgnoringAsciiCase a b
  | _ => a == b

/-- Whether two values of a qualifier count as the same, word for word. -/
def sameValue (q : Qualifier) : List String → List String → Bool
  | [], [] => true
  | a :: as, b :: bs => q.sameWord a b && q.sameValue as bs
  | _, _ => false

end Qualifier

end VersionRules
