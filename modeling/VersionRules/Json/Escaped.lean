import VersionRules.Text.Digit

/-!
# JSON strings as they are written

Between its quotes a JSON string is a sequence of characters and escapes. An escape `\uXXXX` is one
16-bit unit, and a character beyond the first 65536 takes two of them; a unit of such a pair that
stands alone is well written, but denotes no text.

## Main definitions

* `Piece`, `Escaped` — a character or a unit, and a sequence of them
* `Escaped.read?` — reads a string behind its opening quote
* `Escaped.decode?` — the text that a string denotes
-/

namespace VersionRules.Json

/-- A part of a string: a character, or a unit that was written as `\uXXXX`. -/
inductive Piece
  | char (c : Char)
  | unit (n : Nat)
  deriving DecidableEq

/-- A string as it is written, without its quotes. -/
abbrev Escaped : Type :=
  List Piece

namespace Escaped

/-- The value of a hexadecimal digit in either case. -/
def hexDigit? (c : Char) : Option Nat :=
  if c.isDigit then some (Text.digitValue c)
  else if 'a' ≤ c ∧ c ≤ 'f' then some (c.toNat - 'a'.toNat + 10)
  else if 'A' ≤ c ∧ c ≤ 'F' then some (c.toNat - 'A'.toNat + 10)
  else none

/-- The number that four hexadecimal digits denote. -/
def hexUnit? (a b c d : Char) : Option Nat := do
  return ((← hexDigit? a) * 16 + (← hexDigit? b)) * 256 + (← hexDigit? c) * 16 + (← hexDigit? d)

/-- The character that an escape of one letter stands for. -/
def shortEscape? : Char → Option Char
  | '"' => some '"'
  | '\\' => some '\\'
  | '/' => some '/'
  | 'b' => some '\x08'
  | 'f' => some '\x0c'
  | 'n' => some '\n'
  | 'r' => some '\r'
  | 't' => some '\t'
  | _ => none

/-- Reads a string up to its closing quote, and gives what stands behind the quote. Control
characters have to be escaped. -/
def read? : List Char → Option (Escaped × List Char)
  | [] => none
  | '"' :: rest => some ([], rest)
  | '\\' :: 'u' :: a :: b :: c :: d :: cs => do
    let n ← hexUnit? a b c d
    let (pieces, rest) ← read? cs
    return (.unit n :: pieces, rest)
  | '\\' :: e :: cs => do
    let x ← shortEscape? e
    let (pieces, rest) ← read? cs
    return (.char x :: pieces, rest)
  | c :: cs =>
    if c = '\\' ∨ c.toNat < 0x20 then none
    else do
      let (pieces, rest) ← read? cs
      return (.char c :: pieces, rest)

theorem length_of_read? {cs rest : List Char} {pieces : Escaped}
    (h : read? cs = some (pieces, rest)) : rest.length ≤ cs.length := by
  fun_induction read? cs generalizing pieces rest with
  | case1 => simp at h
  | case2 cs =>
    obtain ⟨-, rfl⟩ := Prod.mk.inj (Option.some.inj h)
    simp
  | case3 a b c d cs ih =>
    simp only [bind, Option.bind_eq_some_iff] at h
    obtain ⟨n, -, p, hp, h⟩ := h
    obtain ⟨-, rfl⟩ := Prod.mk.inj (Option.some.inj h)
    have := ih hp
    simp only [List.length_cons]
    omega
  | case4 e cs _ ih =>
    simp only [bind, Option.bind_eq_some_iff] at h
    obtain ⟨x, -, p, hp, h⟩ := h
    obtain ⟨-, rfl⟩ := Prod.mk.inj (Option.some.inj h)
    have := ih hp
    simp only [List.length_cons]
    omega
  | case5 => simp at h
  | case6 c cs _ _ _ _ ih =>
    simp only [bind, Option.bind_eq_some_iff] at h
    obtain ⟨p, hp, h⟩ := h
    obtain ⟨-, rfl⟩ := Prod.mk.inj (Option.some.inj h)
    have := ih hp
    simp only [List.length_cons]
    omega

/-- Whether a unit is the first of a pair. -/
def isHigh (n : Nat) : Bool :=
  0xD800 ≤ n && n ≤ 0xDBFF

/-- Whether a unit is the second of a pair. -/
def isLow (n : Nat) : Bool :=
  0xDC00 ≤ n && n ≤ 0xDFFF

/-- The character that a pair of units denotes. -/
def pairChar (high low : Nat) : Char :=
  Char.ofNat (0x10000 + (high - 0xD800) * 0x400 + (low - 0xDC00))

/-- The characters that a string denotes; a unit of a pair must not stand alone. -/
def decodeChars? : Escaped → Option (List Char)
  | [] => some []
  | .char c :: pieces => (decodeChars? pieces).map (c :: ·)
  | .unit high :: .unit low :: pieces =>
    if isHigh high then
      if isLow low then (decodeChars? pieces).map (pairChar high low :: ·) else none
    else if isLow high then none
    else (decodeChars? (.unit low :: pieces)).map (Char.ofNat high :: ·)
  | .unit n :: pieces =>
    if isHigh n || isLow n then none else (decodeChars? pieces).map (Char.ofNat n :: ·)

/-- The text that a string denotes. -/
def decode? (s : Escaped) : Option String :=
  s.decodeChars?.map String.ofList

end Escaped

end VersionRules.Json
