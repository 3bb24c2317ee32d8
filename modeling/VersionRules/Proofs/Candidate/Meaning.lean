import VersionRules.Proofs.Candidate.RoundTrip
import VersionRules.Proofs.Token.Types
import VersionRules.Rule.Filter

/-!
# What a value means

A quality level can be spelt in many ways. A spelling is admitted if its upper-case form is the name
of the level, where a long s counts as an `S` and a ligature as several letters; but two spellings
count as the same only if they differ in the case of ASCII letters alone. So a term of a rule finds
a recorded level exactly if both are spelt with the same characters beyond ASCII, and between
spellings in ASCII it never misses. Values of all other qualifiers mean themselves.

## Main definitions

* `Text.beyondAscii` — the characters of a text beyond ASCII, with their places
* `Qualifier.SameMeaning` — two values that denote the same

## Main results

* `Text.sameIgnoringAsciiCase_iff` — equal up to ASCII case is equal in upper case and beyond ASCII
* `Qualifier.sameValue_iff` — when two values count as the same
* `has_iff_sameMeaning` — when a candidate has the value that a term asks for
* `not_has_iff_sameMeaning` — a level with a long s is missed
-/

namespace VersionRules

open Text

/-! ### Letter case -/

namespace Text

/-- Whether a character is in ASCII. -/
def isAscii (c : Char) : Bool :=
  c.toNat < 0x80

/-- A character beyond ASCII. -/
def foreign? (c : Char) : Option Char :=
  if isAscii c then none else some c

/-- The characters of a text beyond ASCII, each at its place. -/
def beyondAscii (s : String) : List (Option Char) :=
  s.toList.map foreign?

variable {c d : Char} {cs ds : List Char} {s t : String}

/-- What holds of all codes in ASCII holds of all characters in ASCII. -/
theorem of_isAscii {p : Char → Prop} (hp : ∀ n < 0x80, p (Char.ofNat n)) (h : isAscii c) : p c := by
  have hc := hp c.toNat (by simpa [isAscii] using h)
  rwa [Char.ofNat_toNat] at hc

theorem foreign?_eq_none_iff : foreign? c = none ↔ isAscii c := by
  simp [foreign?]

theorem foreign?_eq_some_iff : foreign? c = some d ↔ ¬ isAscii c ∧ c = d := by
  simp [foreign?]

theorem upperChar_of_isAscii (h : isAscii c) : upperChar c = [c.toUpper] :=
  of_isAscii (p := fun c => upperChar c = [c.toUpper]) (by decide) h

theorem toLower_toUpper_of_isAscii (h : isAscii c) : c.toUpper.toLower = c.toLower :=
  of_isAscii (p := fun c => c.toUpper.toLower = c.toLower) (by decide) h

theorem isAscii_toLower_of_isAscii (h : isAscii c) : isAscii c.toLower :=
  of_isAscii (p := fun c => isAscii c.toLower) (by decide) h

theorem toLower_of_not_isAscii (h : ¬ isAscii c) : c.toLower = c := by
  have hupper : ¬ c.isUpper := by
    intro hupper
    have hcode : c.toNat ≤ 0x5A := (decide_eq_true_iff.1 hupper).2
    simp only [isAscii, decide_eq_true_eq] at h
    omega
  exact dif_neg fun hcode => hupper (decide_eq_true_iff.2 hcode)

/-- Lower case keeps what becomes of a character in upper case. -/
theorem upperChar_toLower (c : Char) : upperChar c.toLower = upperChar c := by
  by_cases h : isAscii c
  · exact of_isAscii (p := fun c => upperChar c.toLower = upperChar c) (by decide) h
  · rw [toLower_of_not_isAscii h]

theorem foreign?_toLower (c : Char) : foreign? c.toLower = foreign? c := by
  by_cases h : isAscii c
  · rw [foreign?, foreign?, if_pos h, if_pos (isAscii_toLower_of_isAscii h)]
  · rw [toLower_of_not_isAscii h]

/-- Where the characters beyond ASCII are the same, the letters in ASCII can be read off the upper
case. -/
theorem map_toLower_of_flatMap_upperChar (hupper : cs.flatMap upperChar = ds.flatMap upperChar)
    (hforeign : cs.map foreign? = ds.map foreign?) :
    cs.map Char.toLower = ds.map Char.toLower := by
  induction cs generalizing ds with
  | nil =>
    obtain rfl := List.map_eq_nil_iff.1 hforeign.symm
    rfl
  | cons c cs ih =>
    cases ds with
    | nil => cases hforeign
    | cons d ds =>
      obtain ⟨hfirst, hrest⟩ := List.cons.inj hforeign
      rw [List.flatMap_cons, List.flatMap_cons] at hupper
      by_cases hc : isAscii c
      · have hd : isAscii d := foreign?_eq_none_iff.1 (hfirst ▸ foreign?_eq_none_iff.2 hc)
        rw [upperChar_of_isAscii hc, upperChar_of_isAscii hd] at hupper
        obtain ⟨hletter, hupper⟩ := List.cons.inj hupper
        rw [List.map_cons, List.map_cons, ih hupper hrest, ← toLower_toUpper_of_isAscii hc,
          hletter, toLower_toUpper_of_isAscii hd]
      · -- Beyond ASCII both texts have the same character, however many letters it stands for.
        obtain ⟨-, rfl⟩ := foreign?_eq_some_iff.1 (hfirst ▸ foreign?_eq_some_iff.2 ⟨hc, rfl⟩)
        rw [List.map_cons, List.map_cons, ih (List.append_cancel_left hupper) hrest]

/-- Texts are equal up to the case of ASCII letters exactly if they are equal in upper case and
beyond ASCII. -/
theorem sameIgnoringAsciiCase_iff :
    sameIgnoringAsciiCase s t ↔ upper s = upper t ∧ beyondAscii s = beyondAscii t := by
  rw [sameIgnoringAsciiCase, beq_iff_eq, upper, upper, String.ofList_inj, beyondAscii, beyondAscii]
  constructor
  · intro h
    constructor
    · have hlower (u : String) : (u.toList.map Char.toLower).flatMap upperChar =
          u.toList.flatMap upperChar := by
        simp only [List.flatMap_map, upperChar_toLower]
      rw [← hlower s, ← hlower t, h]
    · have hlower (u : String) : (u.toList.map Char.toLower).map foreign? =
          u.toList.map foreign? := by
        simp only [List.map_map, Function.comp_def, foreign?_toLower]
      rw [← hlower s, ← hlower t, h]
  · rintro ⟨hupper, hforeign⟩
    exact map_toLower_of_flatMap_upperChar hupper hforeign

/-- Texts in ASCII that are equal in upper case are equal beyond ASCII, where there is nothing. -/
theorem beyondAscii_eq_of_isAscii (hs : ∀ c ∈ s.toList, isAscii c) (ht : ∀ c ∈ t.toList, isAscii c)
    (h : upper s = upper t) : beyondAscii s = beyondAscii t := by
  have hforeign (u : String) (hu : ∀ c ∈ u.toList, isAscii c) :
      beyondAscii u = (upper u).toList.map fun _ => none := by
    have hupper : u.toList.flatMap upperChar = u.toList.map Char.toUpper := by
      rw [List.flatMap_def, List.map_congr_left fun c hc => upperChar_of_isAscii (hu c hc),
        ← List.flatMap_def, List.map_eq_flatMap]
    rw [upper, String.toList_ofList, hupper, List.map_map]
    exact List.map_congr_left fun c hc => if_pos (hu c hc)
  rw [hforeign s hs, hforeign t ht, h]

end Text

/-! ### Values -/

namespace Qualifier

/-- Two values denote the same: the same quality level, or else the same words. -/
def SameMeaning : Qualifier → List String → List String → Prop
  | quality, a, b => a.map Quality.ofText? = b.map Quality.ofText?
  | _, a, b => a = b

instance (q : Qualifier) (a b : List String) : Decidable (q.SameMeaning a b) :=
  match q with
  | quality => inferInstanceAs (Decidable (a.map Quality.ofText? = b.map Quality.ofText?))
  | product | version | milestone | build | groupBuild | groupVersion | type =>
    inferInstanceAs (Decidable (a = b))

variable {q : Qualifier} {a b words : List String}

/-- A quality level that was validated is one word, which spells a level. -/
theorem exists_level_of_validate (h : quality.validate words = .ok ()) :
    ∃ word level, words = [word] ∧ Quality.ofText? word = some level := by
  obtain ⟨hlength, hbad⟩ := validate_eq_ok_iff.1 h
  obtain ⟨word, rfl⟩ := List.length_eq_one_iff.1 hlength
  obtain ⟨j, hadmits⟩ := exists_admits_of_firstBadWord? hbad word (List.mem_singleton_self word)
  obtain ⟨level, hlevel⟩ := Option.isSome_iff_exists.1 hadmits
  exact ⟨word, level, rfl, hlevel⟩

theorem sameWord_iff_of_ne (hq : q ≠ quality) {word word' : String} :
    q.sameWord word word' ↔ word = word' := by
  cases q with
  | quality => exact absurd rfl hq
  | _ => exact beq_iff_eq

theorem sameValue_iff_of_ne (hq : q ≠ quality) : q.sameValue a b ↔ a = b := by
  induction a generalizing b with
  | nil => cases b <;> simp [sameValue]
  | cons word a ih =>
    cases b with
    | nil => simp [sameValue]
    | cons word' b =>
      rw [sameValue, Bool.and_eq_true, sameWord_iff_of_ne hq, ih, List.cons.injEq]

theorem sameMeaning_iff_of_ne (hq : q ≠ quality) : q.SameMeaning a b ↔ a = b := by
  cases q with
  | quality => exact absurd rfl hq
  | _ => exact Iff.rfl

/-- Texts spell the same level if they are equal in upper case. -/
theorem ofText?_eq_some_iff {word word' : String} {level : Quality}
    (h : Quality.ofText? word = some level) :
    Quality.ofText? word' = some level ↔ upper word = upper word' := by
  constructor
  · intro h'
    rw [← Quality.name_of_ofText? h, ← Quality.name_of_ofText? h']
  · intro hupper
    rw [← h, Quality.ofText?, Quality.ofText?, hupper]

/-- Two spellings count as the same if they spell one level with the same characters beyond
ASCII. -/
theorem sameWord_quality_iff {word word' : String} {level : Quality}
    (h : Quality.ofText? word = some level) : quality.sameWord word word' ↔
      Quality.ofText? word' = some level ∧ beyondAscii word = beyondAscii word' := by
  rw [ofText?_eq_some_iff h]
  exact sameIgnoringAsciiCase_iff

/-- Two values count as the same if they mean the same and are spelt with the same characters beyond
ASCII. -/
theorem sameValue_iff (ha : q.validate a = .ok ()) (hb : q.validate b = .ok ()) :
    q.sameValue a b ↔ q.SameMeaning a b ∧ a.map beyondAscii = b.map beyondAscii := by
  by_cases hq : q = quality
  · subst hq
    obtain ⟨word, level, rfl, hlevel⟩ := exists_level_of_validate ha
    obtain ⟨word', level', rfl, hlevel'⟩ := exists_level_of_validate hb
    rw [sameValue, sameValue, Bool.and_true, sameWord_quality_iff hlevel, SameMeaning]
    simp [hlevel, eq_comm]
  · rw [sameValue_iff_of_ne hq, sameMeaning_iff_of_ne hq]
    refine ⟨?_, And.left⟩
    rintro rfl
    exact ⟨rfl, rfl⟩

/-- Between spellings in ASCII, values count as the same if they mean the same. -/
theorem sameValue_iff_sameMeaning (ha : q.validate a = .ok ()) (hb : q.validate b = .ok ())
    (hascii : q = quality → ∀ word ∈ a ++ b, ∀ c ∈ word.toList, isAscii c) :
    q.sameValue a b ↔ q.SameMeaning a b := by
  rw [sameValue_iff ha hb, and_iff_left_iff_imp]
  intro hsame
  by_cases hq : q = quality
  · subst hq
    obtain ⟨word, level, rfl, hlevel⟩ := exists_level_of_validate ha
    obtain ⟨word', level', rfl, hlevel'⟩ := exists_level_of_validate hb
    have hlevels : Quality.ofText? word' = some level := by
      simpa [SameMeaning, hlevel, eq_comm] using hsame
    have hascii := hascii rfl
    rw [List.map_singleton, List.map_singleton, beyondAscii_eq_of_isAscii
      (hascii word (by simp)) (hascii word' (by simp)) ((ofText?_eq_some_iff hlevel).1 hlevels)]
  · rw [(sameMeaning_iff_of_ne hq).1 hsame]

end Qualifier

open Qualifier

/-- **When a candidate has a value.** A candidate with admitted values has what a term of a rule
asks for exactly if one of its values means the same and is spelt with the same characters beyond
ASCII. Only quality levels can mean the same and be spelt otherwise; as long as they are spelt in
ASCII, a candidate has what a term asks for exactly if one of its values means the same. -/
theorem has_iff_sameMeaning {g : Grammar} {rule : String} {ts : List Token} {t : Token}
    {q : Qualifier} {words : List String} (h : g.tokens rule = .ok ts) (ht : t ∈ ts)
    (hkind : t.kind = .qualifier q words) (v : Candidate) (hv : v.Valid) :
    (v.has q words ↔ ∃ value ∈ v.values q, q.SameMeaning value words ∧
        value.map Text.beyondAscii = words.map Text.beyondAscii) ∧
      ((q = .quality → ∀ value ∈ words :: v.values q, ∀ word ∈ value, ∀ c ∈ word.toList,
          Text.isAscii c) →
        (v.has q words ↔ ∃ value ∈ v.values q, q.SameMeaning value words)) := by
  have hwords := Grammar.validate_of_mem_tokens h ht hkind
  rw [Candidate.has, List.any_eq_true]
  constructor
  · refine exists_congr fun value => and_congr_right fun hvalue => ?_
    exact sameValue_iff (hv q value hvalue) hwords
  · intro hascii
    refine exists_congr fun value => and_congr_right fun hvalue => ?_
    refine sameValue_iff_sameMeaning (hv q value hvalue) hwords ?_
    intro hq word hword
    rcases List.mem_append.1 hword with hword | hword
    · exact hascii hq value (List.mem_cons_of_mem _ hvalue) word hword
    · exact hascii hq words List.mem_cons_self word hword

/-- A released candidate is found whatever case the level is written in. -/
theorem has_iff_sameMeaning_released :
    ∃ t v, Filter.grammar.tokens "quality:Released" = .ok [t] ∧ t ∈ [t] ∧
      t.kind = .qualifier .quality ["Released"] ∧ v.Valid ∧
      v = (Candidate.ofVersion "1.0").add .quality ["RELEASED"] ∧
      (∀ value ∈ ["Released"] :: v.values .quality, ∀ word ∈ value, ∀ c ∈ word.toList,
        Text.isAscii c) ∧ v.has .quality ["Released"] := by
  have htokens : Filter.grammar.tokens "quality:Released" =
      .ok [⟨0, 16, .qualifier .quality ["Released"]⟩] := by decide +kernel
  have hvalid : ((Candidate.ofVersion "1.0").add .quality ["RELEASED"]).Valid := by decide +kernel
  have hvalues : ((Candidate.ofVersion "1.0").add .quality ["RELEASED"]).values .quality =
      [["RELEASED"]] := by decide
  have hascii : ∀ value ∈ ["Released"] ::
      ((Candidate.ofVersion "1.0").add .quality ["RELEASED"]).values .quality,
      ∀ word ∈ value, ∀ c ∈ word.toList, Text.isAscii c := by
    rw [hvalues]
    simp [Text.isAscii]
  have hmeaning := (has_iff_sameMeaning htokens (List.mem_singleton_self _) rfl _ hvalid).2
    fun _ => hascii
  refine ⟨_, _, htokens, List.mem_singleton_self _, rfl, hvalid, rfl, hascii, hmeaning.2 ?_⟩
  exact ⟨["RELEASED"], by decide, by decide +kernel⟩

/-- A candidate can be tagged with the level `TESTED`, spelt with a long s, and is not found by a
term for the level. -/
theorem not_has_iff_sameMeaning :
    ¬ ∀ (g : Grammar) rule ts t q words, g.tokens rule = .ok ts → t ∈ ts →
      t.kind = .qualifier q words → ∀ v : Candidate, v.Valid →
        (v.has q words ↔ ∃ value ∈ v.values q, q.SameMeaning value words) := by
  intro h
  have htokens : Filter.grammar.tokens "QUALITY:TESTED" =
      .ok [⟨0, 14, .qualifier .quality ["TESTED"]⟩] := by decide +kernel
  have hvalid : ((Candidate.ofVersion "1.0").add .quality ["teſted"]).Valid := by decide +kernel
  have hhas := (h _ _ _ _ _ _ htokens (List.mem_singleton_self _) rfl _ hvalid).2
    ⟨["teſted"], by decide, by decide +kernel⟩
  revert hhas
  decide

end VersionRules
