import VersionRules.Text.Digit

/-!
# JSON numbers

A number is an integer part without superfluous zeros, and optionally a fraction and an exponent.
Numbers are never computed with here, but one that exceeds the range of double precision is no
value.

Whether it does is decided on an approximation: the leading digits that fit into 64 bits form an
integer, which is rounded to double precision and multiplied by a rounded power of ten. All of this
takes place in whole numbers, since only magnitudes above one matter.

## Main definitions

* `Json.Number` — the digits and the exponent of a number
* `Number.ofChars?` — reads a number
* `Number.inRange` — whether its magnitude is within double precision
-/

namespace VersionRules.Json

/-- The parts of a number as they are written, apart from signs of the number itself. -/
structure Number where
  whole : List Char
  fraction : List Char
  exponent : Int
  deriving DecidableEq

namespace Number

/-- The characters that numbers are written with. -/
def isNumberChar (c : Char) : Bool :=
  c.isDigit || c == '-' || c == '+' || c == '.' || c == 'e' || c == 'E'

/-- Reads digits up to the end of a text, one at least. -/
def digits? (cs : List Char) : Option (List Char) :=
  if !cs.isEmpty && cs.all Char.isDigit then some cs else none

/-- Reads an exponent behind its letter: digits with an optional sign. -/
def exponent? : List Char → Option Int
  | '+' :: cs => (digits? cs).map fun ds => (Text.digitsValue ds : Int)
  | '-' :: cs => (digits? cs).map fun ds => -(Text.digitsValue ds : Int)
  | cs => (digits? cs).map fun ds => (Text.digitsValue ds : Int)

/-- Reads what follows the integer part and the fraction: nothing, or an exponent. -/
def withExponent? (whole fraction : List Char) : List Char → Option Number
  | [] => some ⟨whole, fraction, 0⟩
  | e :: cs =>
    if e = 'e' ∨ e = 'E' then (exponent? cs).map (⟨whole, fraction, ·⟩) else none

/-- Reads what follows the integer part: a fraction, an exponent, both, or nothing. -/
def withFraction? (whole : List Char) : List Char → Option Number
  | '.' :: cs =>
    match cs.takeWhile Char.isDigit with
    | [] => none
    | fraction => withExponent? whole fraction (cs.dropWhile Char.isDigit)
  | cs => withExponent? whole [] cs

/-- Reads a number without a sign. -/
def unsigned? (cs : List Char) : Option Number :=
  match cs.takeWhile Char.isDigit with
  | [] => none
  | '0' :: _ :: _ => none
  | whole => withFraction? whole (cs.dropWhile Char.isDigit)

/-- Reads a number that makes up the whole text. -/
def ofChars? : List Char → Option Number
  | '-' :: cs => unsigned? cs
  | cs => unsigned? cs

/-! ### Range -/

/-- The largest integer of 64 bits. -/
def maxSignificand : Nat :=
  Nat.pow 2 64 - 1

/-- The integer formed by leading digits, and the power of ten that it is to be multiplied by. -/
structure Approximation where
  significand : Nat
  exponent : Int

namespace Approximation

/-- Appends a digit of the integer part, unless digits were already left out or it does not fit any
more; a digit that is left out counts as a zero. -/
def pushWhole (x : Approximation) (c : Char) : Approximation :=
  let n := 10 * x.significand + Text.digitValue c
  if x.exponent = 0 ∧ n ≤ maxSignificand then ⟨n, 0⟩ else ⟨x.significand, x.exponent + 1⟩

/-- Appends digits of the fraction as long as they fit. -/
def pushFraction (x : Approximation) : List Char → Approximation
  | [] => x
  | c :: cs =>
    let n := 10 * x.significand + Text.digitValue c
    if n ≤ maxSignificand then pushFraction ⟨n, x.exponent - 1⟩ cs else x

end Approximation

/-- The approximation of a number. -/
def approximation (x : Number) : Approximation :=
  let digits := (x.whole.foldl Approximation.pushWhole ⟨0, 0⟩).pushFraction x.fraction
  { digits with exponent := digits.exponent + x.exponent }

/-- An integer rounded to the 53 leading bits of double precision; a tie goes to the even
neighbour. -/
def roundToDouble (n : Nat) : Nat :=
  let shift := n.log2 - 52
  let unit := Nat.pow 2 shift
  let floor := n / unit
  let twice := 2 * (n % unit)
  if twice < unit ∨ (twice = unit ∧ floor % 2 = 0) then floor * unit else (floor + 1) * unit

/-- The least integer that rounds to no double: half a unit above the largest one. -/
def overflowBound : Nat :=
  Nat.pow 2 1024 - Nat.pow 2 970

/-- Whether the magnitude of a number is within double precision. Powers of ten above the 308th are
not, whatever they are multiplied by, except by zero. -/
def inRange (x : Number) : Bool :=
  let a := x.approximation
  a.significand == 0 || a.exponent ≤ 0 ||
    (a.exponent ≤ 308 &&
      roundToDouble a.significand * roundToDouble (Nat.pow 10 a.exponent.toNat) < overflowBound)

end Number

end VersionRules.Json
