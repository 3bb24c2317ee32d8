/-!
# Letter case

Keywords, qualifier names and quality levels are written in ASCII, and are read without regard to
case. Two maps do this. `Text.upper` writes a text in upper case as Unicode does, where one
character may become several: `ı` is an `I`, `ſ` an `S`, and the ligature `ﬃ` an `FFI`.
`Text.lower` is the same for lower case, where the Kelvin sign is a `k`.

Both are exact on characters whose other case lies in ASCII, and leave every other character
beyond ASCII alone. No keyword contains such a character in either case, so a comparison with a
keyword cannot tell the difference.

## Main definitions

* `Text.upper`, `Text.lower` — the two maps
* `Text.keyword` — the canonical spelling of a keyword: upper case, with `_` for `-`
* `Text.sameIgnoringAsciiCase` — equality up to the case of ASCII letters alone
-/

namespace VersionRules.Text

/-- The upper-case form of a character, where that form is ASCII; otherwise the character. -/
def upperChar : Char → List Char
  | 'ß' => ['S', 'S']
  | 'ı' => ['I']
  | 'ſ' => ['S']
  | 'ﬀ' => ['F', 'F']
  | 'ﬁ' => ['F', 'I']
  | 'ﬂ' => ['F', 'L']
  | 'ﬃ' => ['F', 'F', 'I']
  | 'ﬄ' => ['F', 'F', 'L']
  | 'ﬅ' => ['S', 'T']
  | 'ﬆ' => ['S', 'T']
  | c => [c.toUpper]

/-- The lower-case form of a character, where that form is ASCII; otherwise the character. -/
def lowerChar (c : Char) : Char :=
  if c = '\u212A' then 'k' else c.toLower

/-- A text in upper case, as far as a comparison with ASCII can tell. -/
def upper (s : String) : String :=
  String.ofList (s.toList.flatMap upperChar)

/-- A text in lower case, as far as a comparison with ASCII can tell. -/
def lower (s : String) : String :=
  String.ofList (s.toList.map lowerChar)

/-- A text with every occurrence of one character replaced by another. -/
def replaceChar (old new : Char) (s : String) : String :=
  String.ofList (s.toList.map fun c => if c = old then new else c)

/-- The canonical spelling of a keyword: upper case, with `_` for `-`. -/
def keyword (s : String) : String :=
  replaceChar '-' '_' (upper s)

/-- Whether two texts differ at most in the case of ASCII letters. -/
def sameIgnoringAsciiCase (s t : String) : Bool :=
  s.toList.map Char.toLower == t.toList.map Char.toLower

end VersionRules.Text
