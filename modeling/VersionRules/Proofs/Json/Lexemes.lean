import VersionRules.Json.Reader
import VersionRules.Proofs.Json.Strings
import VersionRules.Proofs.Json.Values
import VersionRules.Proofs.Text.Characters

/-!
# The lexemes of printed values

A value has the same lexemes however it is printed: the printers differ in white space only. A text
that spells a list of lexemes can be put in front of any text that its last lexeme does not run
into, which is one that begins with neither a letter nor a character of numbers.

## Main definitions

* `Json.lexemes` — the lexemes of a value
* `Delimits` — the texts that no lexeme runs into
* `Spells` — the texts that are read as a list of lexemes, whatever delimits them

## Main results

* `spells_compactChars`, `spells_prettyChars` — both printed forms of a value spell its lexemes
-/

namespace VersionRules.Json

/-! ### The lexemes of a value -/

mutual

/-- The lexemes of a value, with its strings as they are printed. -/
def lexemes : Json String → List Lexeme
  | null => [.null]
  | bool value => [.bool value]
  | number literal => [.number literal]
  | string s => [.text (.printed s)]
  | array items => .beginArray :: itemLexemes items ++ [.endArray]
  | object members => .beginObject :: memberLexemes members ++ [.endObject]

/-- The lexemes of the items of an array. -/
def itemLexemes : List (Json String) → List Lexeme
  | [] => []
  | [item] => item.lexemes
  | item :: items => item.lexemes ++ .comma :: itemLexemes items

/-- The lexemes of the members of an object. -/
def memberLexemes : List (String × Json String) → List Lexeme
  | [] => []
  | [(key, value)] => .text (.printed key) :: .colon :: value.lexemes
  | (key, value) :: members =>
    .text (.printed key) :: .colon :: value.lexemes ++ .comma :: memberLexemes members

end

/-! ### The characters of numbers -/

namespace Number

variable {cs whole fraction : List Char} {c : Char} {n : Number}

theorem isNumberChar_of_isDigit (h : c.isDigit) : isNumberChar c := by
  simp [isNumberChar, h]

theorem isNumberChar_of_digits? {ds : List Char} (h : digits? cs = some ds) :
    ∀ c ∈ cs, isNumberChar c := by
  unfold digits? at h
  split at h
  · next hcs =>
    intro c hc
    exact isNumberChar_of_isDigit (List.all_eq_true.1 (Bool.and_eq_true_iff.1 hcs).2 c hc)
  · cases h

theorem isNumberChar_of_exponent? {e : Int} (h : exponent? cs = some e) :
    ∀ c ∈ cs, isNumberChar c := by
  unfold exponent? at h
  split at h
  · obtain ⟨ds, hds, -⟩ := Option.map_eq_some_iff.1 h
    exact List.forall_mem_cons.2 ⟨rfl, isNumberChar_of_digits? hds⟩
  · obtain ⟨ds, hds, -⟩ := Option.map_eq_some_iff.1 h
    exact List.forall_mem_cons.2 ⟨rfl, isNumberChar_of_digits? hds⟩
  · obtain ⟨ds, hds, -⟩ := Option.map_eq_some_iff.1 h
    exact isNumberChar_of_digits? hds

theorem isNumberChar_of_withExponent? (h : withExponent? whole fraction cs = some n) :
    ∀ c ∈ cs, isNumberChar c := by
  cases cs with
  | nil => simp
  | cons e cs =>
    rw [withExponent?] at h
    split at h
    · next he =>
      obtain ⟨x, hx, -⟩ := Option.map_eq_some_iff.1 h
      refine List.forall_mem_cons.2 ⟨?_, isNumberChar_of_exponent? hx⟩
      rcases he with rfl | rfl <;> rfl
    · cases h

/-- Digits in front of characters of numbers. -/
theorem isNumberChar_of_dropWhile (h : ∀ c ∈ cs.dropWhile Char.isDigit, isNumberChar c) :
    ∀ c ∈ cs, isNumberChar c := by
  intro c hc
  rw [← List.takeWhile_append_dropWhile (p := Char.isDigit) (l := cs), List.mem_append] at hc
  rcases hc with hc | hc
  · exact isNumberChar_of_isDigit (List.all_eq_true.1 List.all_takeWhile c hc)
  · exact h c hc

theorem isNumberChar_of_withFraction? (h : withFraction? whole cs = some n) :
    ∀ c ∈ cs, isNumberChar c := by
  unfold withFraction? at h
  split at h
  · split at h
    · cases h
    · exact List.forall_mem_cons.2
        ⟨rfl, isNumberChar_of_dropWhile (isNumberChar_of_withExponent? h)⟩
  · exact isNumberChar_of_withExponent? h

theorem isNumberChar_of_unsigned? (h : unsigned? cs = some n) : ∀ c ∈ cs, isNumberChar c := by
  unfold unsigned? at h
  split at h
  · cases h
  · cases h
  · exact isNumberChar_of_dropWhile (isNumberChar_of_withFraction? h)

/-- A number is written with the characters of numbers. -/
theorem isNumberChar_of_ofChars? (h : ofChars? cs = some n) : ∀ c ∈ cs, isNumberChar c := by
  unfold ofChars? at h
  split at h
  · exact List.forall_mem_cons.2 ⟨rfl, isNumberChar_of_unsigned? h⟩
  · exact isNumberChar_of_unsigned? h

/-- A number begins with a digit or a sign. -/
theorem exists_cons_of_ofChars? (h : ofChars? cs = some n) :
    ∃ c ds, cs = c :: ds ∧ (c.isDigit ∨ c = '-') := by
  unfold ofChars? at h
  split at h
  · exact ⟨_, _, rfl, .inr rfl⟩
  · cases cs with
    | nil => cases h
    | cons c ds =>
      by_cases hc : c.isDigit
      · exact ⟨c, ds, rfl, .inl hc⟩
      · rw [unsigned?, List.takeWhile_cons_of_neg hc] at h
        cases h

end Number

/-! ### Reading one lexeme -/

variable {c : Char} {cs ds rest : List Char} {l : Lexeme} {ls ms : List Lexeme} {level : Nat}

/-- The characters that lexemes of more than one character are made of, apart from strings. -/
def isRunChar (c : Char) : Bool :=
  c.isAlpha || Number.isNumberChar c

theorem isBlank_eq_false_of_isRunChar (h : isRunChar c) : isBlank c = false := by
  rw [← Bool.not_eq_true]
  intro hblank
  simp only [isBlank, Bool.or_eq_true, beq_iff_eq] at hblank
  rcases hblank with ((rfl | rfl) | rfl) | rfl <;> revert h <;> decide

theorem charLexeme?_eq_none_of_isRunChar (h : isRunChar c) : charLexeme? c = none := by
  unfold charLexeme?
  split
  case h_7 => rfl
  all_goals revert h; decide

theorem ne_quote_of_isRunChar (h : isRunChar c) : c ≠ '"' := by
  rintro rfl
  revert h
  decide

/-- A text that no lexeme runs into. -/
def Delimits (cs : List Char) : Prop :=
  ∀ c ∈ cs.head?, isRunChar c = false

theorem delimits_nil : Delimits [] := by
  simp [Delimits]

theorem delimits_cons (h : isRunChar c = false) : Delimits (c :: cs) := by
  simp [Delimits, h]

theorem Delimits.append (hcs : Delimits cs) (hds : Delimits ds) : Delimits (cs ++ ds) := by
  cases cs with
  | nil => exact hds
  | cons c cs => exact hcs

/-- A text that is read as a list of lexemes, whatever delimits it. -/
def Spells (cs : List Char) (ls : List Lexeme) : Prop :=
  ∀ ⦃rest : List Char⦄ ⦃ms : List Lexeme⦄, Delimits rest → lexemes? rest = some ms →
    lexemes? (cs ++ rest) = some (ls ++ ms)

namespace Spells

theorem lexemes?_eq (h : Spells cs ls) : lexemes? cs = some ls := by
  have := h delimits_nil lexemes?.eq_1
  rwa [List.append_nil, List.append_nil] at this

theorem nil : Spells [] [] :=
  fun _ _ _ h => h

/-- Two texts of which the second one delimits the first. -/
theorem append (hcs : Spells cs ls) (hdelim : Delimits ds) (hds : Spells ds ms) :
    Spells (cs ++ ds) (ls ++ ms) := by
  intro rest ns hrest h
  rw [List.append_assoc, List.append_assoc]
  exact hcs (hdelim.append hrest) (hds hrest h)

theorem blank_cons (hc : isBlank c) (h : Spells cs ls) : Spells (c :: cs) ls := by
  intro rest ms hrest hms
  rw [List.cons_append, lexemes?, if_pos hc]
  exact h hrest hms

theorem char_cons (hc : charLexeme? c = some l) (h : Spells cs ls) :
    Spells (c :: cs) (l :: ls) := by
  intro rest ms hrest hms
  have hblank : ¬isBlank c := by
    intro hblank
    simp only [isBlank, Bool.or_eq_true, beq_iff_eq] at hblank
    rcases hblank with ((rfl | rfl) | rfl) | rfl <;> cases hc
  rw [List.cons_append, lexemes?, if_neg hblank, hc, h hrest hms]
  rfl

/-- A printed string delimits itself, so that anything may follow it. -/
theorem quote_append (s : String) (h : Spells cs ls) :
    Spells (quote s ++ cs) (.text (.printed s) :: ls) := by
  intro rest ms hrest hms
  have hread := Escaped.read?_printed s (cs ++ rest)
  rw [quote, List.append_assoc, List.append_assoc, List.cons_append, lexemes?, if_neg (by decide)]
  show (if '"' = '"' then _ else _) = _
  rw [if_pos rfl]
  split
  · next s' rest' heq =>
    obtain ⟨rfl, rfl⟩ := Prod.mk.inj (Option.some.inj (heq.symm.trans hread))
    rw [h hrest hms]
    rfl
  · next heq => cases heq.symm.trans hread

theorem quote (s : String) : Spells (quote s) [.text (.printed s)] := by
  have := quote_append s nil
  rwa [List.append_nil] at this

theorem newLine_append (level : Nat) (h : Spells cs ls) : Spells (newLine level ++ cs) ls := by
  refine blank_cons rfl ?_
  induction 2 * level with
  | zero => exact h
  | succ n ih => exact blank_cons rfl ih

/-- A run of letters that is a name. -/
theorem name (hcs : cs.all Char.isAlpha) (h : nameLexeme? cs = some l) : Spells cs [l] := by
  intro rest ms hrest hms
  cases cs with
  | nil => cases h
  | cons c cs =>
    obtain ⟨hc, hcs⟩ := List.forall_mem_cons.1 (List.all_eq_true.1 hcs)
    have hrun : isRunChar c := Bool.or_eq_true_iff.2 (.inl hc)
    obtain ⟨htake, hdrop⟩ := Text.takeWhile_dropWhile_append hcs fun d hd =>
      (Bool.or_eq_false_iff.1 (hrest d hd)).1
    rw [List.cons_append, lexemes?, isBlank_eq_false_of_isRunChar hrun,
      charLexeme?_eq_none_of_isRunChar hrun]
    show (if c = '"' then _ else _) = _
    rw [if_neg (ne_quote_of_isRunChar hrun), if_pos hc, htake, hdrop, h, hms]
    rfl

theorem null : Spells "null".toList [.null] :=
  name rfl rfl

theorem bool (value : Bool) : Spells (boolChars value) [.bool value] := by
  cases value with
  | false => exact name rfl rfl
  | true => exact name rfl rfl

/-- A number, which does not begin with a letter. -/
theorem number {n : Number} (h : Number.ofChars? cs = some n) :
    Spells cs [.number (String.ofList cs)] := by
  intro rest ms hrest hms
  have hcs := Number.isNumberChar_of_ofChars? h
  obtain ⟨c, cs, rfl, hc⟩ := Number.exists_cons_of_ofChars? h
  obtain ⟨hnum, hcs⟩ := List.forall_mem_cons.1 hcs
  have hrun : isRunChar c := Bool.or_eq_true_iff.2 (.inr hnum)
  -- The reader looks for a name first.
  have halpha : ¬c.isAlpha := by
    rcases hc with hc | rfl
    · exact Text.not_isAlpha_of_isDigit hc
    · decide
  obtain ⟨htake, hdrop⟩ := Text.takeWhile_dropWhile_append hcs fun d hd =>
    (Bool.or_eq_false_iff.1 (hrest d hd)).2
  rw [List.cons_append, lexemes?, isBlank_eq_false_of_isRunChar hrun,
    charLexeme?_eq_none_of_isRunChar hrun]
  show (if c = '"' then _ else _) = _
  rw [if_neg (ne_quote_of_isRunChar hrun), if_neg halpha, htake, hdrop, numberLexeme?, h, hms]
  rfl

/-- A number as it stands in a value. -/
theorem literal {literal : String} (h : acceptsNumber literal) :
    Spells literal.toList [.number literal] := by
  rw [acceptsNumber, Option.any_eq_true] at h
  obtain ⟨n, hn, -⟩ := h
  have := number hn
  rwa [String.ofList_toList] at this

end Spells

/-! ### Printing on one line -/

mutual

/-- A value on one line spells its lexemes. -/
theorem spells_compactChars :
    ∀ v : Json String, v.allNumbers acceptsNumber → Spells v.compactChars v.lexemes
  | null, _ => .null
  | bool value, _ => .bool value
  | number _, hv => .literal hv
  | string s, _ => .quote s
  | array items, hv =>
    .char_cons rfl <| (spells_compactItems items hv).append (delimits_cons rfl) <|
      .char_cons rfl .nil
  | object members, hv =>
    .char_cons rfl <| (spells_compactMembers members hv).append (delimits_cons rfl) <|
      .char_cons rfl .nil

theorem spells_compactItems : ∀ items : List (Json String), allNumbersItems acceptsNumber items →
    Spells (compactItems items) (itemLexemes items)
  | [], _ => .nil
  | [item], hv => spells_compactChars item (Bool.and_eq_true_iff.1 hv).1
  | item :: next :: items, hv =>
    have ⟨hitem, hitems⟩ := Bool.and_eq_true_iff.1 hv
    (spells_compactChars item hitem).append (delimits_cons rfl) <|
      .char_cons rfl <| spells_compactItems (next :: items) hitems

theorem spells_compactMembers :
    ∀ members : List (String × Json String), allNumbersMembers acceptsNumber members →
      Spells (compactMembers members) (memberLexemes members)
  | [], _ => .nil
  | [(key, value)], hv =>
    .quote_append key <| .char_cons rfl <|
      spells_compactChars value (Bool.and_eq_true_iff.1 hv).1
  | (key, value) :: next :: members, hv =>
    have ⟨hvalue, hmembers⟩ := Bool.and_eq_true_iff.1 hv
    (Spells.quote_append key <| .char_cons rfl <| spells_compactChars value hvalue).append
      (delimits_cons rfl) <| .char_cons rfl <| spells_compactMembers (next :: members) hmembers

end

/-! ### Printing over several lines -/

/-- A member of an object on a line of its own. -/
theorem spells_member (level : Nat) (key : String) (h : Spells cs ls) :
    Spells (newLine level ++ quote key ++ ':' :: ' ' :: cs)
      (.text (.printed key) :: .colon :: ls) := by
  rw [List.append_assoc]
  exact .newLine_append level <| .quote_append key <| .char_cons rfl <| .blank_cons rfl h

mutual

/-- A value over several lines spells its lexemes. -/
theorem spells_prettyChars :
    ∀ (level : Nat) (v : Json String), v.allNumbers acceptsNumber →
      Spells (v.prettyChars level) v.lexemes
  | _, null, _ => .null
  | _, bool value, _ => .bool value
  | _, number _, hv => .literal hv
  | _, string s, _ => .quote s
  | _, array [], _ => .char_cons rfl <| .char_cons rfl .nil
  | level, array (item :: items), hv => by
    have hitems := spells_prettyItems (level + 1) (item :: items) hv
    have hend : Spells (newLine level ++ [']']) [.endArray] :=
      .newLine_append level <| .char_cons rfl .nil
    show Spells ('[' :: prettyItems (level + 1) (item :: items) ++ newLine level ++ [']']) _
    rw [List.append_assoc]
    exact .char_cons rfl <| hitems.append (delimits_cons rfl) hend
  | _, object [], _ => .char_cons rfl <| .char_cons rfl .nil
  | level, object (member :: members), hv => by
    have hmembers := spells_prettyMembers (level + 1) (member :: members) hv
    have hend : Spells (newLine level ++ ['\x7d']) [.endObject] :=
      .newLine_append level <| .char_cons rfl .nil
    show Spells
      ('\x7b' :: prettyMembers (level + 1) (member :: members) ++ newLine level ++ ['\x7d']) _
    rw [List.append_assoc]
    exact .char_cons rfl <| hmembers.append (delimits_cons rfl) hend

theorem spells_prettyItems :
    ∀ (level : Nat) (items : List (Json String)), allNumbersItems acceptsNumber items →
      Spells (prettyItems level items) (itemLexemes items)
  | _, [], _ => .nil
  | level, [item], hv =>
    .newLine_append level <| spells_prettyChars level item (Bool.and_eq_true_iff.1 hv).1
  | level, item :: next :: items, hv =>
    have ⟨hitem, hitems⟩ := Bool.and_eq_true_iff.1 hv
    (Spells.newLine_append level <| spells_prettyChars level item hitem).append
      (delimits_cons rfl) <| .char_cons rfl <| spells_prettyItems level (next :: items) hitems

theorem spells_prettyMembers :
    ∀ (level : Nat) (members : List (String × Json String)),
      allNumbersMembers acceptsNumber members →
        Spells (prettyMembers level members) (memberLexemes members)
  | _, [], _ => .nil
  | level, [(key, value)], hv =>
    spells_member level key <| spells_prettyChars level value (Bool.and_eq_true_iff.1 hv).1
  | level, (key, value) :: next :: members, hv =>
    have ⟨hvalue, hmembers⟩ := Bool.and_eq_true_iff.1 hv
    (spells_member level key <| spells_prettyChars level value hvalue).append
      (delimits_cons rfl) <| .char_cons rfl <| spells_prettyMembers level (next :: members) hmembers

end

end VersionRules.Json
