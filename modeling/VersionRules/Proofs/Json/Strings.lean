import VersionRules.Json.Escaped
import VersionRules.Json.Printer

/-!
# Printed strings

A printed string is read as the text that it was printed from. The control characters without an
escape of their own are printed as units, and all other characters come back as characters.

## Main definitions

* `Escaped.printed` — a text as it is read off its printed form

## Main results

* `Escaped.read?_printed` — the printed form of a text is read up to its closing quote
* `Escaped.decode?_printed` — what is read denotes the text
-/

namespace VersionRules.Json

/-- A character as it is read off its printed form. -/
def Piece.printed (c : Char) : Piece :=
  match c with
  | '\x08' | '\x0c' | '\n' | '\r' | '\t' => .char c
  | c => if c.toNat < 0x20 then .unit c.toNat else .char c

namespace Escaped

variable {c : Char} {cs rest : List Char} {pieces : Escaped} {n : Nat}

/-- A text as it is read off its printed form. -/
def printed (s : String) : Escaped :=
  s.toList.map .printed

/-! ### Reading -/

theorem hexUnit?_hexDigit :
    ∀ n < 0x20, hexUnit? '0' '0' (hexDigit (n / 16)) (hexDigit (n % 16)) = some n := by
  decide

theorem read?_of_plain (hquote : c ≠ '"') (hslash : c ≠ '\\') (hc : ¬c.toNat < 0x20)
    (h : read? cs = some (pieces, rest)) : read? (c :: cs) = some (.char c :: pieces, rest) := by
  rw [read?.eq_def]
  split <;> simp_all

theorem read?_of_shortEscape {e : Char} (he : e ≠ 'u') (hc : shortEscape? e = some c)
    (h : read? cs = some (pieces, rest)) :
    read? ('\\' :: e :: cs) = some (.char c :: pieces, rest) := by
  rw [read?, hc, h]
  · rfl
  · exact fun _ _ _ _ _ hu => absurd hu he

/-- A printed character is read, whatever follows it. -/
theorem read?_escapeChar (c : Char) (h : read? cs = some (pieces, rest)) :
    read? (escapeChar c ++ cs) = some (.printed c :: pieces, rest) := by
  unfold escapeChar
  split
  case h_8 hquote hslash hb hf hn hr ht =>
    -- The character has no short escape, neither where it is printed nor where it is read.
    have hprinted : Piece.printed c = if c.toNat < 0x20 then .unit c.toNat else .char c := by
      unfold Piece.printed
      split <;> simp_all
    rw [hprinted]
    split
    · next hc =>
      show read? ('\\' :: 'u' :: '0' :: '0' :: _ :: _ :: cs) = _
      rw [read?, hexUnit?_hexDigit _ hc, h]
      rfl
    · next hc => exact read?_of_plain hquote hslash hc h
  all_goals exact read?_of_shortEscape (by decide) rfl h

/-- The printed form of a text is read up to its closing quote. -/
theorem read?_printed (s : String) (rest : List Char) :
    read? (s.toList.flatMap escapeChar ++ '"' :: rest) = some (printed s, rest) := by
  unfold printed
  induction s.toList with
  | nil => rfl
  | cons c cs ih =>
    rw [List.flatMap_cons, List.append_assoc]
    exact read?_escapeChar c ih

/-! ### Decoding -/

theorem isHigh_of_lt (h : n < 0xD800) : isHigh n = false := by
  simp only [isHigh, Bool.and_eq_false_iff, decide_eq_false_iff_not]
  omega

theorem isLow_of_lt (h : n < 0xD800) : isLow n = false := by
  simp only [isLow, Bool.and_eq_false_iff, decide_eq_false_iff_not]
  omega

/-- A unit that belongs to no pair denotes a character, whatever follows it. -/
theorem decodeChars?_unit (hhigh : isHigh n = false) (hlow : isLow n = false) :
    decodeChars? (.unit n :: pieces) = (decodeChars? pieces).map (Char.ofNat n :: ·) := by
  cases pieces with
  | nil => simp [decodeChars?, hhigh, hlow]
  | cons piece pieces => cases piece <;> simp [decodeChars?, hhigh, hlow]

theorem decodeChars?_printed (c : Char) :
    decodeChars? (.printed c :: pieces) = (decodeChars? pieces).map (c :: ·) := by
  unfold Piece.printed
  split
  case h_6 =>
    split
    · next hc =>
      have hsmall : c.toNat < 0xD800 := by omega
      rw [decodeChars?_unit (isHigh_of_lt hsmall) (isLow_of_lt hsmall), Char.ofNat_toNat]
    · rfl
  all_goals rfl

/-- What is read off the printed form of a text denotes the text. -/
theorem decode?_printed (s : String) : decode? (printed s) = some s := by
  have h (cs : List Char) : decodeChars? (cs.map .printed) = some cs := by
    induction cs with
    | nil => rfl
    | cons c cs ih => rw [List.map_cons, decodeChars?_printed, ih, Option.map_some]
  rw [decode?, printed, h, Option.map_some, String.ofList_toList]

end Escaped

end VersionRules.Json
