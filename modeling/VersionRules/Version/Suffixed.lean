import VersionRules.Text.Digit
import VersionRules.Text.Folding
import VersionRules.Version.Order

/-!
# Versions with a rebuild suffix

A version such as `1.2.3.redhat-00004` has up to three numeric parts, a free qualifier, and a tail
that names a suffix and counts the rebuilds of one and the same version. Its order follows the
numeric parts, then the qualifier, and then prefers the higher rebuild number.

Whatever does not have this form is still read: missing numeric parts are zero, parts that exceed
64 bits are the largest number of 64 bits, and a text without a proper tail is all qualifier. Only
such a saturated part, and a text without any numeric part, give rise to a warning.

Tails are found by a pattern that is made from the suffix, and a pattern can be too large to be
compiled. Which suffixes have a pattern that compiles is up to the pattern engine, so it is a
parameter here, called `compiles`. If the pattern does not compile, no version has a tail, and there
is neither an error nor a warning.

## Main definitions

* `SuffixedVersion` — the parts of a version
* `SuffixedVersion.numericPrefix` — the numeric parts at the start of a text
* `SuffixedVersion.tail?` — the suffix and the rebuild number at the end of a text
* `SuffixedVersion.ofString` — reads a version for a given suffix
* `SuffixedVersion.order` — the order of version strings for a given suffix
-/

namespace VersionRules

/-- The tail of a version: the suffix as it is written, and the rebuild number. -/
structure Rebuild where
  suffix : String
  number : Nat
  deriving DecidableEq

/-- The parts of a version, and the text it was read from. -/
structure SuffixedVersion where
  major : Nat
  minor : Nat
  micro : Nat
  qualifier : String
  rebuild : Option Rebuild
  text : String
  deriving DecidableEq

namespace SuffixedVersion

/-- The largest number of 64 bits. -/
def maxPart : Nat :=
  Nat.pow 2 64 - 1

/-- The characters between the parts of a version. -/
def isDelimiter (c : Char) : Bool :=
  c == '.' || c == '-' || c == '_'

/-- A text without the delimiter at its start, if there is one. -/
def dropDelimiter : List Char → List Char
  | [] => []
  | c :: cs => if isDelimiter c then cs else c :: cs

/-! ### The numeric parts -/

/-- At most `count` runs of digits, each behind a delimiter, at the start of a text, and the
rest. -/
def furtherRuns : Nat → List Char → List (List Char) × List Char
  | 0, cs => ([], cs)
  | _ + 1, [] => ([], [])
  | count + 1, d :: cs =>
    let run := cs.takeWhile Char.isDigit
    if isDelimiter d && !run.isEmpty then
      let (runs, rest) := furtherRuns count (cs.dropWhile Char.isDigit)
      (run :: runs, rest)
    else
      ([], d :: cs)

/-- At most three runs of digits with single delimiters between them at the start of a text, and
the rest. -/
def numericPrefix (cs : List Char) : List (List Char) × List Char :=
  let run := cs.takeWhile Char.isDigit
  if run.isEmpty then
    ([], cs)
  else
    let (runs, rest) := furtherRuns 2 (cs.dropWhile Char.isDigit)
    (run :: runs, rest)

/-- The value of a numeric part: the largest number of 64 bits if the part exceeds it, and zero if
it is missing. -/
def partValue : Option (List Char) → Nat
  | some run => min (Text.digitsValue run) maxPart
  | none => 0

/-! ### The tail -/

/-- Splits off a text that equals `suffix` without regard to case. -/
def splitFolded? : List Char → List Char → Option (List Char × List Char)
  | [], cs => some ([], cs)
  | _ :: _, [] => none
  | s :: ss, c :: cs =>
    if Text.fold s = Text.fold c then
      (splitFolded? ss cs).map fun (matched, rest) => (c :: matched, rest)
    else
      none

/-- Reads the suffix, at most one delimiter, and decimal digits up to the end. -/
def suffixAndDigits? (suffix cs : List Char) : Option (List Char × List Char) :=
  match splitFolded? suffix cs with
  | some (matched, rest) =>
    let digits := dropDelimiter rest
    if !digits.isEmpty && digits.all Text.isDecimalDigit then some (matched, digits) else none
  | none => none

/-- Reads a tail that makes up the whole text, with or without a delimiter at its start. -/
def tailHere? (suffix cs : List Char) : Option (List Char × List Char) :=
  suffixAndDigits? suffix (dropDelimiter cs) <|> suffixAndDigits? suffix cs

/-- Finds the longest tail of a text: what stands before it, the suffix as it is written, and the
digits. A line feed never stands before a tail. -/
def tail? (suffix : List Char) : List Char → Option (List Char × List Char × List Char)
  | [] => none
  | c :: cs =>
    match tailHere? suffix (c :: cs) with
    | some (matched, digits) => some ([], matched, digits)
    | none =>
      -- The tail has to begin further on, so this character would stand before it.
      if c = '\n' then none
      else (tail? suffix cs).map fun (before, tail) => (c :: before, tail)

/-- The rebuild number that decimal digits denote: only ASCII digits do, and only up to the
largest number of 64 bits. -/
def rebuildNumber? (digits : List Char) : Option Nat :=
  let number := Text.digitsValue digits
  if digits.all Char.isDigit && number ≤ maxPart then some number else none

/-- Splits a text into a qualifier and a rebuild, if it has a proper tail. There is no tail for the
empty suffix, nor for one whose pattern does not compile. -/
def splitRebuild (compiles : String → Bool) (suffix : String) (cs : List Char) :
    List Char × Option Rebuild :=
  if suffix.isEmpty || !compiles suffix then
    (cs, none)
  else
    match tail? suffix.toList cs with
    | some (before, matched, digits) =>
      match rebuildNumber? digits with
      | some number => (before, some ⟨String.ofList matched, number⟩)
      | none => (cs, none)
    | none => (cs, none)

/-! ### Reading and comparing -/

/-- Reads a version for a given suffix. -/
def ofString (compiles : String → Bool) (suffix version : String) : SuffixedVersion :=
  let (runs, rest) := numericPrefix version.toList
  let (qualifier, rebuild) := splitRebuild compiles suffix (dropDelimiter rest)
  { major := partValue runs[0]?
    minor := partValue runs[1]?
    micro := partValue runs[2]?
    qualifier := String.ofList qualifier
    rebuild
    text := version }

/-- What is noted while a version is read. -/
inductive Warning
  /-- a numeric part that exceeds 64 bits -/
  | partTooLarge (version part : String)
  /-- no numeric part at the start -/
  | noNumericPart (version : String)
  deriving DecidableEq

/-- The text of a warning. -/
def Warning.message : Warning → String
  | partTooLarge version part =>
    "Version '" ++ version ++ "' has out of range part '" ++ part ++
      "', treating it as the maximum"
  | noNumericPart version => "Version '" ++ version ++ "' has no numeric part"

/-- The warnings that reading a version gives, in the order of its parts. -/
def warnings (version : String) : List Warning :=
  match (numericPrefix version.toList).1 with
  | [] => [.noNumericPart version]
  | runs =>
    (runs.filter fun run => maxPart < Text.digitsValue run).map fun run =>
      .partTooLarge version (String.ofList run)

/-- The rebuild number, if there is a rebuild. -/
def rebuildNumber (v : SuffixedVersion) : Option Nat :=
  v.rebuild.map Rebuild.number

/-- Compares by major, minor and micro part, by qualifier, and last by rebuild number, where none
is below any. -/
def compare : SuffixedVersion → SuffixedVersion → Ordering :=
  compareLex (compareOn major) <| compareLex (compareOn minor) <| compareLex (compareOn micro) <|
    compareLex (compareOn qualifier) (compareOn rebuildNumber)

/-- The order of version strings for a given suffix. -/
def order (compiles : String → Bool) (suffix : String) : StringOrder := fun a b =>
  (ofString compiles suffix a).compare (ofString compiles suffix b)

end SuffixedVersion

end VersionRules
