import VersionRules.Json.Basic

/-!
# Printing JSON

A value is printed on one line without white space, or over several lines with two spaces for each
level. Only quotes, backslashes and control characters are escaped.

## Main definitions

* `Json.quote` — a string as it is printed
* `Json.compact` — a value on one line
* `Json.pretty` — a value over several lines
-/

namespace VersionRules.Json

/-- A hexadecimal digit in lower case. -/
def hexDigit (n : Nat) : Char :=
  if n < 10 then Char.ofNat ('0'.toNat + n) else Char.ofNat ('a'.toNat + n - 10)

/-- A character as it is printed inside a string. -/
def escapeChar (c : Char) : List Char :=
  match c with
  | '"' => ['\\', '"']
  | '\\' => ['\\', '\\']
  | '\x08' => ['\\', 'b']
  | '\x0c' => ['\\', 'f']
  | '\n' => ['\\', 'n']
  | '\r' => ['\\', 'r']
  | '\t' => ['\\', 't']
  | c =>
    if c.toNat < 0x20 then ['\\', 'u', '0', '0', hexDigit (c.toNat / 16), hexDigit (c.toNat % 16)]
    else [c]

/-- A string as it is printed. -/
def quote (s : String) : List Char :=
  '"' :: s.toList.flatMap escapeChar ++ ['"']

/-- A truth value as it is printed. -/
def boolChars (value : Bool) : List Char :=
  if value then "true".toList else "false".toList

mutual

/-- The characters of a value on one line. -/
def compactChars : Json String → List Char
  | null => "null".toList
  | bool value => boolChars value
  | number literal => literal.toList
  | string s => quote s
  | array items => '[' :: compactItems items ++ [']']
  | object members => '\x7b' :: compactMembers members ++ ['\x7d']

/-- The items of an array on one line. -/
def compactItems : List (Json String) → List Char
  | [] => []
  | [item] => compactChars item
  | item :: items => compactChars item ++ ',' :: compactItems items

/-- The members of an object on one line. -/
def compactMembers : List (String × Json String) → List Char
  | [] => []
  | [(key, value)] => quote key ++ ':' :: compactChars value
  | (key, value) :: members =>
    quote key ++ ':' :: compactChars value ++ ',' :: compactMembers members

end

/-- The beginning of a line at a level. -/
def newLine (level : Nat) : List Char :=
  '\n' :: List.replicate (2 * level) ' '

mutual

/-- The characters of a value over several lines, where `level` is that of the line it begins
on. -/
def prettyChars (level : Nat) : Json String → List Char
  | null => "null".toList
  | bool value => boolChars value
  | number literal => literal.toList
  | string s => quote s
  | array items =>
    if items.isEmpty then ['[', ']']
    else '[' :: prettyItems (level + 1) items ++ newLine level ++ [']']
  | object members =>
    if members.isEmpty then ['\x7b', '\x7d']
    else '\x7b' :: prettyMembers (level + 1) members ++ newLine level ++ ['\x7d']

/-- The items of an array, each on a line of its own. -/
def prettyItems (level : Nat) : List (Json String) → List Char
  | [] => []
  | [item] => newLine level ++ prettyChars level item
  | item :: items => newLine level ++ prettyChars level item ++ ',' :: prettyItems level items

/-- The members of an object, each on a line of its own. -/
def prettyMembers (level : Nat) : List (String × Json String) → List Char
  | [] => []
  | [(key, value)] => newLine level ++ quote key ++ ':' :: ' ' :: prettyChars level value
  | (key, value) :: members =>
    newLine level ++ quote key ++ ':' :: ' ' :: prettyChars level value ++
      ',' :: prettyMembers level members

end

/-- A value on one line. -/
def compact (v : Json String) : String :=
  String.ofList v.compactChars

/-- A value over several lines. -/
def pretty (v : Json String) : String :=
  String.ofList (v.prettyChars 0)

end VersionRules.Json
