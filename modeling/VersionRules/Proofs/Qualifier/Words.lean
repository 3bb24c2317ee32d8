import VersionRules.Proofs.Text.Characters
import VersionRules.Qualifier.Value

/-!
# Values as texts

A value is written with single spaces between its words, and is split into the same words again.
This rests on the patterns: none admits an empty word, or white space or a mark within one, with the
exception of phrases, which are made of such words with single spaces between them and are not
split.

## Main definitions

* `Text.IsSolid` — some characters without white space
* `Text.IsPlainWord` — some characters without white space and marks
* `Text.Spaced` — texts that are made of words with white space between them

## Main results

* `Text.words_of_spaced`, `Text.trim_append` — white space between and around words does not matter
* `Text.trim_intercalate` — nothing is trimmed of a text that is made of solid words
* `Qualifier.isPlainWord_of_admits` — the patterns admit plain words, apart from phrases
* `Qualifier.splitValue_of_spaced`, `Qualifier.splitValue_intercalate` — the words of a value come
  back
-/

namespace VersionRules

namespace Text

variable {c : Char} {cs w space before after : List Char} {ws : List (List Char)}

/-- Some characters, and no white space among them. -/
structure IsSolid (cs : List Char) : Prop where
  ne_nil : cs ≠ []
  isSpace_eq_false : ∀ c ∈ cs, isSpace c = false

/-- Some characters, and all of them plain. -/
structure IsPlainWord (cs : List Char) : Prop where
  ne_nil : cs ≠ []
  isPlain : ∀ c ∈ cs, isPlain c

theorem IsPlainWord.isSolid (h : IsPlainWord cs) : IsSolid cs :=
  ⟨h.ne_nil, fun c hc => isSpace_eq_false_of_isPlain (h.isPlain c hc)⟩

theorem IsSolid.head (h : IsSolid (c :: cs)) : isSpace c = false :=
  h.isSpace_eq_false c List.mem_cons_self

/-! ### Joining solid words -/

/-- Words with some white space between each two of them. -/
inductive Spaced : List (List Char) → List Char → Prop
  | single (w : List Char) : Spaced [w] w
  | cons {w space text : List Char} {ws : List (List Char)} (hne : space ≠ [])
      (hspace : ∀ c ∈ space, isSpace c) (h : Spaced ws text) :
      Spaced (w :: ws) (w ++ (space ++ text))

/-- Such a text consists of characters of the words and of white space. -/
theorem Spaced.forall_mem {p : Char → Prop} (h : Spaced ws cs) (hws : ∀ w ∈ ws, ∀ c ∈ w, p c)
    (hspace : ∀ c, isSpace c → p c) : ∀ c ∈ cs, p c := by
  induction h with
  | single w => exact hws w List.mem_cons_self
  | cons _ hblank _ ih =>
    obtain ⟨hw, hws⟩ := List.forall_mem_cons.1 hws
    refine List.forall_mem_append.2 ⟨hw, List.forall_mem_append.2 ⟨?_, ih hws⟩⟩
    exact fun c hc => hspace c (hblank c hc)

theorem Spaced.exists_cons (h : Spaced ws cs) (hws : ∀ w ∈ ws, IsPlainWord w) :
    ∃ c ds, cs = c :: ds ∧ isPlain c := by
  -- The text begins with its first word.
  obtain ⟨w, tail, hw, rfl⟩ : ∃ w tail, IsPlainWord w ∧ cs = w ++ tail := by
    cases h with
    | single w => exact ⟨cs, [], hws cs List.mem_cons_self, (List.append_nil cs).symm⟩
    | cons => exact ⟨_, _, hws _ List.mem_cons_self, rfl⟩
  obtain ⟨c, ds, rfl⟩ := List.exists_cons_of_ne_nil hw.ne_nil
  exact ⟨c, ds ++ tail, rfl, hw.isPlain c List.mem_cons_self⟩

theorem spaced_intercalate (h : ws ≠ []) : Spaced ws ([' '].intercalate ws) := by
  induction ws with
  | nil => exact absurd rfl h
  | cons w ws ih =>
    cases ws with
    | nil =>
      rw [List.intercalate_singleton]
      exact .single w
    | cons next ws =>
      rw [List.intercalate_cons_cons, List.append_assoc]
      exact .cons (List.cons_ne_nil _ _) (List.forall_mem_singleton.2 rfl)
        (ih (List.cons_ne_nil _ _))

/-- White space before a text is no part of its words. -/
theorem words_append_of_isSpace (h : ∀ c ∈ space, isSpace c) : words (space ++ cs) = words cs := by
  induction space with
  | nil => rfl
  | cons c space ih =>
    obtain ⟨hc, hspace⟩ := List.forall_mem_cons.1 h
    have hsplit :
        ([] ++ c :: (space ++ cs)).splitOnP isSpace = [] :: (space ++ cs).splitOnP isSpace :=
      List.splitOnP_append_cons_of_forall_mem nofun c hc _
    rw [List.nil_append] at hsplit
    rw [List.cons_append, words, hsplit, List.filter_cons_of_neg (by simp)]
    exact ih hspace

/-- A word ends where white space follows, or the text. -/
theorem words_append_of_isSolid (hw : IsSolid w) (h : ∀ c ∈ cs.head?, isSpace c) :
    words (w ++ cs) = w :: words cs := by
  have hkeep : (!w.isEmpty) = true := by simp [hw.ne_nil]
  cases cs with
  | nil =>
    rw [List.append_nil, words, List.splitOnP_eq_singleton hw.isSpace_eq_false,
      List.filter_cons_of_pos (by exact hkeep)]
    rfl
  | cons c cs =>
    have hc : isSpace c := h c rfl
    have hrest : words ([c] ++ cs) = words cs :=
      words_append_of_isSpace (List.forall_mem_singleton.2 hc)
    rw [List.singleton_append] at hrest
    rw [hrest, words, List.splitOnP_append_cons_of_forall_mem hw.isSpace_eq_false c hc,
      List.filter_cons_of_pos (by exact hkeep)]
    rfl

/-- A text that is made of words has these words, whatever white space is around them. -/
theorem words_of_spaced (hws : ∀ w ∈ ws, IsSolid w) (h : Spaced ws cs)
    (hbefore : ∀ c ∈ before, isSpace c) (hafter : ∀ c ∈ after, isSpace c) :
    words (before ++ (cs ++ after)) = ws := by
  rw [words_append_of_isSpace hbefore]
  clear hbefore
  induction h with
  | single w =>
    have hend : words (after ++ []) = [] := words_append_of_isSpace hafter
    rw [List.append_nil] at hend
    rw [words_append_of_isSolid (hws w List.mem_cons_self)
      fun c hc => hafter c (List.mem_of_mem_head? hc), hend]
  | @cons w space cs ws hne hspace _ ih =>
    obtain ⟨hw, hws⟩ := List.forall_mem_cons.1 hws
    obtain ⟨c, space, rfl⟩ := List.exists_cons_of_ne_nil hne
    have hhead : ∀ d ∈ (c :: space ++ cs ++ after).head?, isSpace d := by
      rintro d ⟨⟩
      exact hspace c List.mem_cons_self
    rw [List.append_assoc, words_append_of_isSolid hw hhead, List.append_assoc,
      words_append_of_isSpace hspace, ih hws]

/-- White space around a text is trimmed. -/
theorem trim_append (hbefore : ∀ c ∈ before, isSpace c) (hafter : ∀ c ∈ after, isSpace c) :
    trim (before ++ (cs ++ after)) = trim cs := by
  have hend (ds : List Char) : trimEnd (ds ++ after) = trimEnd ds := by
    rw [trimEnd, trimEnd, List.reverse_append, List.dropWhile_append_of_pos (by simpa using hafter)]
  rw [trim, trim, List.dropWhile_append_of_pos hbefore, List.dropWhile_append]
  split
  · next hempty =>
    -- Nothing is left of a text that is all white space.
    have hdrop : (after ++ []).dropWhile isSpace = [] := List.dropWhile_append_of_pos hafter
    rw [List.append_nil] at hdrop
    rw [hdrop, List.isEmpty_iff.1 hempty]
  · exact hend _

theorem isSpace_head?_intercalate (h : ∀ w ∈ ws, IsSolid w) :
    ∀ c ∈ ([' '].intercalate ws).head?, isSpace c = false := by
  cases ws with
  | nil => simp
  | cons w ws =>
    obtain ⟨c, cs, rfl⟩ := List.exists_cons_of_ne_nil (h w List.mem_cons_self).ne_nil
    have hc := (h _ List.mem_cons_self).head
    cases ws with
    | nil => simpa using hc
    | cons next ws => simpa [List.intercalate_cons_cons] using hc

theorem intercalate_ne_nil (hw : IsSolid w) : [' '].intercalate (w :: ws) ≠ [] := by
  cases ws with
  | nil => simpa using hw.ne_nil
  | cons next ws => simp [List.intercalate_cons_cons]

theorem isSpace_getLast?_intercalate (h : ∀ w ∈ ws, IsSolid w) :
    ∀ c ∈ ([' '].intercalate ws).getLast?, isSpace c = false := by
  induction ws with
  | nil => simp
  | cons w ws ih =>
    obtain ⟨hw, hws⟩ := List.forall_mem_cons.1 h
    cases ws with
    | nil =>
      intro c hc
      rw [List.intercalate_singleton] at hc
      exact hw.isSpace_eq_false c (List.mem_of_getLast? hc)
    | cons next ws =>
      -- The last character is that of the words behind, which are not empty.
      have hne : [' '].intercalate (next :: ws) ≠ [] :=
        intercalate_ne_nil (hws next List.mem_cons_self)
      intro c hc
      rw [List.intercalate_cons_cons, List.getLast?_append, List.getLast?_eq_some_getLast hne] at hc
      exact ih hws c (List.getLast?_eq_some_getLast hne ▸ hc)

theorem trim_intercalate (h : ∀ w ∈ ws, IsSolid w) :
    trim ([' '].intercalate ws) = [' '].intercalate ws := by
  -- The end of the text is trimmed as the beginning of its reverse.
  have hlast : ∀ c ∈ ([' '].intercalate ws).reverse.head?, isSpace c = false := by
    rw [List.head?_reverse]
    exact isSpace_getLast?_intercalate h
  rw [trim, (takeWhile_dropWhile_of_head? (isSpace_head?_intercalate h)).2, trimEnd,
    (takeWhile_dropWhile_of_head? hlast).2, List.reverse_reverse]

theorem IsSolid.trim_eq (h : IsSolid cs) : trim cs = cs := by
  have := trim_intercalate (List.forall_mem_singleton.2 h)
  rwa [List.intercalate_singleton] at this

end Text

open Text

/-- A level is named by the upper case of whatever spells it. -/
theorem Quality.name_of_ofText? {level : Quality} {text : String} (h : ofText? text = some level) :
    level.name = upper text := by
  simpa using List.find?_some h

namespace Qualifier

variable {q : Qualifier} {c : Char} {cs before after : List Char} {i : Nat} {word : String}
  {ws : List String}

/-! ### The patterns -/

theorem isPlain_of_isWordChar (h : isWordChar c) : isPlain c := by
  simp only [isWordChar, Bool.or_eq_true, beq_iff_eq] at h
  rcases h with ((h | rfl) | rfl) | rfl
  · exact isPlain_of_isAlphanum h
  all_goals rfl

theorem isPlainWord_of_isWord (h : isWord cs) : IsPlainWord cs := by
  simp only [isWord, Bool.and_eq_true, Bool.not_eq_true', List.isEmpty_eq_false_iff] at h
  exact ⟨h.1, fun c hc => isPlain_of_isWordChar (List.all_eq_true.1 h.2 c hc)⟩

theorem isPlainWord_of_isIdentifier (h : isIdentifier cs) : IsPlainWord cs := by
  simp only [isIdentifier, Bool.and_eq_true, Bool.not_eq_true', List.isEmpty_eq_false_iff] at h
  exact ⟨h.1, fun c hc => isPlain_of_isAlphanum (List.all_eq_true.1 h.2 c hc)⟩

theorem isPlainWord_of_isName (h : isName cs) : IsPlainWord cs := by
  cases cs with
  | nil => cases h
  | cons c cs =>
    rw [isName, Bool.and_eq_true] at h
    refine ⟨List.cons_ne_nil c cs, List.forall_mem_cons.2 ⟨isPlain_of_isAlphanum h.1, ?_⟩⟩
    exact fun d hd => isPlain_of_isWordChar (List.all_eq_true.1 h.2 d hd)

/-- What holds of the runs and of the character between them holds of a joined text. -/
theorem forall_mem_intercalate {p : Char → Prop} (hc : p c) {runs : List (List Char)}
    (h : ∀ run ∈ runs, ∀ d ∈ run, p d) : ∀ d ∈ [c].intercalate runs, p d := by
  induction runs with
  | nil => simp
  | cons run runs ih =>
    obtain ⟨hrun, hruns⟩ := List.forall_mem_cons.1 h
    cases runs with
    | nil => rwa [List.intercalate_singleton]
    | cons next runs =>
      rw [List.intercalate_cons_cons]
      refine List.forall_mem_append.2 ⟨List.forall_mem_append.2 ⟨hrun, ?_⟩, ih hruns⟩
      exact List.forall_mem_singleton.2 hc

theorem isPlainWord_of_isNumericVersion (h : isNumericVersion cs) : IsPlainWord cs := by
  have hruns : ∀ run ∈ cs.splitOn '.', run ≠ [] ∧ ∀ c ∈ run, isPlain c := by
    intro run hrun
    have hrun := List.all_eq_true.1 h run hrun
    simp only [Bool.and_eq_true, Bool.not_eq_true', List.isEmpty_eq_false_iff] at hrun
    exact ⟨hrun.1, fun c hc => isPlain_of_isDecimalDigit (List.all_eq_true.1 hrun.2 c hc)⟩
  constructor
  · rintro rfl
    exact (hruns [] (by simp)).1 rfl
  · rw [← show ['.'].intercalate (cs.splitOn '.') = cs from List.intercalate_splitOn '.']
    exact forall_mem_intercalate (p := fun c => isPlain c) rfl fun run hrun => (hruns run hrun).2

theorem isPlainWord_of_quality (h : (Quality.ofText? word).isSome) :
    IsPlainWord word.toList := by
  obtain ⟨level, hlevel⟩ := Option.isSome_iff_exists.1 h
  have hname := Quality.name_of_ofText? hlevel
  have hplain : level.name.toList.all isPlain := by
    cases level <;> rfl
  constructor
  · intro hnil
    have hne : level.name.toList ≠ [] := by cases level <;> decide
    exact hne (by rw [hname, upper, hnil]; rfl)
  · exact isPlain_of_upper (hname ▸ List.all_eq_true.1 hplain)

/-- A phrase is made of words with single spaces between them. -/
theorem isPlainWord_of_isPhrase (h : isPhrase cs) :
    [' '].intercalate (cs.splitOn ' ') = cs ∧ ∀ w ∈ cs.splitOn ' ', IsPlainWord w :=
  ⟨List.intercalate_splitOn ' ', fun w hw => isPlainWord_of_isWord (List.all_eq_true.1 h w hw)⟩

/-- The words of all qualifiers but one are plain. -/
theorem isPlainWord_of_admits (h : q.admits i word) (hq : q ≠ groupVersion) :
    IsPlainWord word.toList := by
  unfold admits at h
  split at h
  · exact isPlainWord_of_isName h
  · exact isPlainWord_of_isName h
  · exact isPlainWord_of_isName h
  · exact isPlainWord_of_isNumericVersion h
  · exact isPlainWord_of_isNumericVersion h
  · cases h
  · exact isPlainWord_of_isWord h
  · exact isPlainWord_of_isIdentifier h
  · exact isPlainWord_of_isIdentifier h
  · exact absurd rfl hq
  · exact isPlainWord_of_quality h
  · exact isPlainWord_of_isWord h

/-- What is not plain in the words of a value is the spaces of a phrase. -/
theorem isPlain_of_admits (h : q.admits i word) : ∀ c ∈ word.toList, c ≠ ' ' → isPlain c := by
  by_cases hq : q = groupVersion
  · subst hq
    obtain ⟨hjoin, hwords⟩ := isPlainWord_of_isPhrase h
    rw [← hjoin]
    exact forall_mem_intercalate (p := fun c => c ≠ ' ' → isPlain c) (absurd rfl)
      fun w hw c hc _ => (hwords w hw).isPlain c hc
  · exact fun c hc _ => (isPlainWord_of_admits h hq).isPlain c hc

/-- A word of a value is plain unless it is a phrase of several words. -/
theorem isPlainWord_of_admits_of_notMem (h : q.admits i word) (hspace : ' ' ∉ word.toList) :
    IsPlainWord word.toList := by
  by_cases hq : q = groupVersion
  · subst hq
    have hword := (isPlainWord_of_isPhrase h).2 word.toList
    rw [List.splitOn_eq_singleton hspace] at hword
    exact hword (List.mem_singleton_self _)
  · exact isPlainWord_of_admits h hq

/-- A value of one word has no white space at its ends. -/
theorem trim_of_admits (h : q.admits i word) : trim word.toList = word.toList := by
  by_cases hq : q = groupVersion
  · subst hq
    obtain ⟨hjoin, hwords⟩ := isPlainWord_of_isPhrase h
    rw [← hjoin]
    exact trim_intercalate fun w hw => (hwords w hw).isSolid
  · exact (isPlainWord_of_admits h hq).isSolid.trim_eq

/-! ### Splitting values -/

theorem exists_admits_of_firstBadWord? (h : q.firstBadWord? i ws = none) :
    ∀ word ∈ ws, ∃ j, q.admits j word := by
  induction ws generalizing i with
  | nil => simp
  | cons word ws ih =>
    rw [firstBadWord?] at h
    split at h
    · next hword => exact List.forall_mem_cons.2 ⟨⟨i, hword⟩, ih h⟩
    · cases h

theorem validate_eq_ok_iff :
    q.validate ws = .ok () ↔ ws.length = q.arity ∧ q.firstBadWord? 0 ws = none := by
  unfold validate
  split
  · next hlength => simp [hlength]
  · next hlength =>
    rw [Decidable.not_not] at hlength
    cases h : q.firstBadWord? 0 ws <;> simp [hlength]

theorem exists_admits_of_validate (h : q.validate ws = .ok ()) :
    ∀ word ∈ ws, ∃ i, q.admits i word :=
  exists_admits_of_firstBadWord? (validate_eq_ok_iff.1 h).2

/-- The words of a value come back when it is written as one text, with any white space between and
around them. -/
theorem splitValue_of_spaced (h : q.validate ws = .ok ()) (hcs : Spaced (ws.map String.toList) cs)
    (hbefore : ∀ c ∈ before, isSpace c) (hafter : ∀ c ∈ after, isSpace c) :
    q.splitValue (before ++ (cs ++ after)) = ws := by
  have hlength := (validate_eq_ok_iff.1 h).1
  have hadmits := exists_admits_of_validate h
  rw [splitValue]
  split
  · next harity =>
    rw [harity] at hlength
    obtain ⟨word, rfl⟩ := List.length_eq_one_iff.1 hlength
    obtain ⟨i, hword⟩ := hadmits word (List.mem_singleton_self word)
    cases hcs with
    | single => rw [trim_append hbefore hafter, trim_of_admits hword, String.ofList_toList]
    | cons _ _ h => cases h
  · next harity =>
    -- The only words that may hold white space are phrases, which stand alone.
    have hq : q ≠ groupVersion := by
      rintro rfl
      exact harity rfl
    have hsolid : ∀ w ∈ ws.map String.toList, IsSolid w := by
      intro w hw
      obtain ⟨word, hword, rfl⟩ := List.mem_map.1 hw
      obtain ⟨i, hadmit⟩ := hadmits word hword
      exact (isPlainWord_of_admits hadmit hq).isSolid
    rw [words_of_spaced hsolid hcs hbefore hafter, List.map_map]
    simp

theorem map_toList_ne_nil_of_validate (h : q.validate ws = .ok ()) :
    ws.map String.toList ≠ [] := by
  rw [Ne, List.map_eq_nil_iff]
  rintro rfl
  exact absurd (validate_eq_ok_iff.1 h).1 (Nat.ne_of_lt q.arity_pos)

theorem splitValue_intercalate (h : q.validate ws = .ok ()) :
    q.splitValue (" ".intercalate ws).toList = ws := by
  have hsplit : q.splitValue ([] ++ ([' '].intercalate (ws.map String.toList) ++ [])) = ws :=
    splitValue_of_spaced h (spaced_intercalate (map_toList_ne_nil_of_validate h)) nofun nofun
  rw [List.nil_append, List.append_nil] at hsplit
  rwa [String.toList_intercalate]

end Qualifier

end VersionRules
