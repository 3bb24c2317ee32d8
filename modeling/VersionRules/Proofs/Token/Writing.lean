import Mathlib.Data.List.Forall2
import VersionRules.Proofs.Token.Concatenation
import VersionRules.Proofs.Token.Names

/-!
# Writing tokens

A list of tokens is written with single spaces between them, each as it is printed, except that
phrases stand in quotes. Reading gives the tokens back. This is so for any list, be it a rule or
not, and for other spellings too: a term may have its name in lower case, white space around its
colon, and its value in quotes of either kind with white space between and around the words, or
without quotes where no word has a space.

## Main definitions

* `Grammar.Admits` — the tokens that can occur in rules of a kind
* `Qualifier.SpellsName`, `Qualifier.SpellsValue`, `Qualifier.Spells` — the spellings of a term
* `TokenKind.Spells` — the spellings of a token
* `TokenKind.written`, `writtenRule` — how a token and a list of tokens are written

## Main results

* `Lexer.readValue_of_spells` — what is read from the spellings of a value
* `Lexer.nextToken_of_spells` — and from those of a token
* `Grammar.tokensFrom_of_spells` — spellings of tokens with spaces between them
* `tokens_of_spellings` — reading what was written
-/

namespace VersionRules

variable {g : Grammar} {n start count : Nat} {x : Char} {q : Qualifier} {words : List String}
  {kind : TokenKind} {kinds : List TokenKind} {name w text value rest before after : List Char}
  {texts ws : List (List Char)} {quote : Char}

/-- The tokens that rules of a kind can have: of a type that is allowed, and with a value if they
are terms. -/
structure Grammar.Admits (g : Grammar) (kind : TokenKind) : Prop where
  allows : g.allows kind.type
  validate : ∀ q words, kind = .qualifier q words → q.validate words = .ok ()

/-! ### Spellings -/

namespace Qualifier

/-- A name, with each letter in either case and a dash or an underscore between its parts. -/
def SpellsName (q : Qualifier) (name : List Char) : Prop :=
  name.map (fun x => if x = '-' then '_' else x.toUpper) = q.name.toList

/-- A value stands in quotes with any white space between and around its words, or without quotes if
its words have no spaces in them. -/
inductive SpellsValue (words : List String) : List Char → Prop
  | quoted {quote : Char} {before text after : List Char} (hquote : Grammar.isQuote quote)
      (hbefore : ∀ x ∈ before, Text.isSpace x) (hafter : ∀ x ∈ after, Text.isSpace x)
      (htext : Text.Spaced (words.map String.toList) text) :
      SpellsValue words (quote :: (before ++ (text ++ after) ++ [quote]))
  | unquoted {text : List Char} (hwords : ∀ word ∈ words, ' ' ∉ word.toList)
      (htext : Text.Spaced (words.map String.toList) text) : SpellsValue words text

/-- A term is the name of the qualifier, a colon with any white space around it, and the value. -/
inductive Spells (q : Qualifier) (words : List String) : List Char → Prop
  | term {name before after value : List Char} (hname : q.SpellsName name)
      (hbefore : ∀ x ∈ before, Text.isSpace x) (hafter : ∀ x ∈ after, Text.isSpace x)
      (hvalue : SpellsValue words value) :
      Spells q words (name ++ (before ++ ':' :: (after ++ value)))

/-- The letters of a name are in upper case, and its parts are not joined by dashes. -/
theorem upperChar_of_mem_name (h : (if x = '-' then '_' else x.toUpper) ∈ q.name.toList) :
    (Text.upperChar x).map (fun y => if y = '-' then '_' else y) =
      [if x = '-' then '_' else x.toUpper] := by
  by_cases hdash : x = '-'
  · subst hdash
    rfl
  · rw [if_neg hdash] at h ⊢
    unfold Text.upperChar
    split
    case h_11 =>
      have hupper : x.toUpper ≠ '-' := by
        refine ne_of_mem_of_not_mem h ?_
        cases q <;> decide
      rw [List.map_singleton, if_neg hupper]
    -- No other character that has an ASCII letter for its upper case is one in ASCII.
    all_goals
      revert h
      cases q <;> decide

theorem keyword_of_spellsName (h : q.SpellsName name) :
    q.name = Text.keyword (String.ofList name) := by
  have hmem : ∀ x ∈ name, (if x = '-' then '_' else x.toUpper) ∈ q.name.toList := by
    intro x hx
    rw [← h]
    exact List.mem_map_of_mem hx
  rw [Text.keyword, Text.replaceChar, Text.upper, String.toList_ofList, String.toList_ofList,
    List.map_flatMap, List.flatMap_congr fun x hx => upperChar_of_mem_name (hmem x hx),
    ← List.map_eq_flatMap, h, String.ofList_toList]

end Qualifier

namespace TokenKind

/-- The spellings of a token. All tokens but terms are spelled as they are printed. -/
def Spells : TokenKind → List Char → Prop
  | qualifier q words, text => q.Spells words text
  | kind, text => text = kind.text.toList

/-- A token as it is printed, but with a phrase in quotes. -/
def written (quote : Char) : TokenKind → String
  | qualifier .groupVersion words =>
    Qualifier.groupVersion.name ++ ":" ++ quote.toString ++ " ".intercalate words ++ quote.toString
  | kind => kind.text

end TokenKind

/-- A list of tokens, written with single spaces between them. -/
def writtenRule (quote : Char) (kinds : List TokenKind) : String :=
  " ".intercalate (kinds.map (TokenKind.written quote))

namespace Lexer

/-! ### Values -/

/-- Words end at the characters that end words. -/
theorem readWords_succ (hg : ∀ x, g.forbids x = false) (hw : Text.IsPlainWord w)
    (hbefore : ∀ x ∈ before, Text.isSpace x) (hrest : ∀ x ∈ rest.head?, g.isWordChar x = false) :
    readWords g q start (count + 1) ⟨n, before ++ (w ++ rest)⟩ =
      (do return String.ofList w :: (← readWords g q start count) : Lexer (List String))
        ⟨n + before.length + w.length, rest⟩ := by
  obtain ⟨x, xs, rfl⟩ := List.exists_cons_of_ne_nil hw.ne_nil
  have hchars : ∀ y ∈ x :: xs, g.isWordChar y :=
    fun y hy => Grammar.isWordChar_of_isPlain (hw.isPlain y hy)
  have hhead : ∀ y ∈ (x :: xs ++ rest).head?, Text.isSpace y = false := by
    rintro y ⟨⟩
    exact hw.isSolid.head
  rw [readWords, bind_of_ok (skipSpace_append hbefore (fun y _ => hg y) hhead)]
  exact bind_of_ok (readWhile_append hchars (fun y _ => hg y) hrest)

theorem readWords_spaced (hg : ∀ x, g.forbids x = false) (hws : ∀ w ∈ ws, Text.IsPlainWord w)
    (h : Text.Spaced ws text) (hbefore : ∀ x ∈ before, Text.isSpace x)
    (hrest : ∀ x ∈ rest.head?, g.isWordChar x = false) :
    readWords g q start ws.length ⟨n, before ++ (text ++ rest)⟩ =
      .ok (ws.map String.ofList) ⟨n + before.length + text.length, rest⟩ := by
  induction h generalizing n before with
  | single w => exact readWords_succ hg (hws w List.mem_cons_self) hbefore hrest
  | @cons w space text ws hne hspace _ ih =>
    obtain ⟨hw, hws⟩ := List.forall_mem_cons.1 hws
    have hhead : ∀ x ∈ (space ++ (text ++ rest)).head?, g.isWordChar x = false := by
      obtain ⟨y, ys, rfl⟩ := List.exists_cons_of_ne_nil hne
      rintro x ⟨⟩
      simp [Grammar.isWordChar, hspace y List.mem_cons_self]
    rw [List.append_assoc, List.append_assoc, List.length_cons,
      readWords_succ hg hw hbefore hhead, bind_of_ok (ih hws hspace)]
    simp only [List.length_append, List.map_cons, ← Nat.add_assoc]
    rfl

theorem not_isPlain_of_isQuote (h : Grammar.isQuote quote) : ¬Text.isPlain quote := by
  simp only [Grammar.isQuote, Bool.or_eq_true, beq_iff_eq] at h
  rcases h with rfl | rfl <;> decide

/-- A value has no quote in it, with white space around it or without. -/
theorem notMem_of_spaced (hquote : Grammar.isQuote quote) (hwords : q.validate words = .ok ())
    (h : Text.Spaced (words.map String.toList) text) (hbefore : ∀ x ∈ before, Text.isSpace x)
    (hafter : ∀ x ∈ after, Text.isSpace x) : quote ∉ before ++ (text ++ after) := by
  have hspace : ∀ x, Text.isSpace x → x ≠ quote := by
    rintro x hx rfl
    cases (isSpace_eq_false_of_isQuote hquote).symm.trans hx
  have htext : ∀ x ∈ text, x ≠ quote := by
    refine h.forall_mem ?_ hspace
    intro w hw x hx hxq
    obtain ⟨word, hword, rfl⟩ := List.mem_map.1 hw
    obtain ⟨i, hadmits⟩ := Qualifier.exists_admits_of_validate hwords word hword
    subst hxq
    exact not_isPlain_of_isQuote hquote
      (Qualifier.isPlain_of_admits hadmits x hx fun hblank => hspace ' ' rfl hblank.symm)
  have hall : ∀ x ∈ before ++ (text ++ after), x ≠ quote :=
    List.forall_mem_append.2 ⟨fun x hx => hspace x (hbefore x hx),
      List.forall_mem_append.2 ⟨htext, fun x hx => hspace x (hafter x hx)⟩⟩
  exact fun hmem => hall quote hmem rfl

theorem isPlainWord_of_notMem (hwords : q.validate words = .ok ())
    (h : ∀ word ∈ words, ' ' ∉ word.toList) :
    ∀ w ∈ words.map String.toList, Text.IsPlainWord w := by
  intro w hw
  obtain ⟨word, hword, rfl⟩ := List.mem_map.1 hw
  obtain ⟨i, hadmits⟩ := Qualifier.exists_admits_of_validate hwords word hword
  exact Qualifier.isPlainWord_of_admits_of_notMem hadmits (h word hword)

/-- A value is read from all of its spellings. -/
theorem readValue_of_spells (hg : ∀ x, g.forbids x = false) (hwords : q.validate words = .ok ())
    (hbefore : ∀ x ∈ before, Text.isSpace x) (hafter : ∀ x ∈ after, Text.isSpace x)
    (h : Qualifier.SpellsValue words value) (hrest : ∀ x ∈ rest.head?, g.isWordChar x = false) :
    readValue g q start ⟨n, before ++ ':' :: (after ++ (value ++ rest))⟩ =
      .ok words ⟨n + before.length + 1 + after.length + value.length, rest⟩ := by
  have hcount := (Qualifier.validate_eq_ok_iff.1 hwords).1
  cases h with
  | @quoted quote space text space' hquote hspace hspace' htext =>
    have hhead : ∀ x ∈ (quote :: (space ++ (text ++ space') ++ [quote]) ++ rest).head?,
        Text.isSpace x = false := by
      rintro x ⟨⟩
      exact isSpace_eq_false_of_isQuote hquote
    have hpeek : (some quote).filter Grammar.isQuote = some quote := by
      simp [hquote]
    have hinside := notMem_of_spaced hquote hwords htext hspace hspace'
    rw [readValue_colon hbefore hafter (fun x _ => hg x) hhead, List.cons_append, List.head?_cons,
      hpeek, List.append_assoc, List.singleton_append]
    refine (bind_of_ok (readQuoted_append hinside (hg quote) fun x _ => hg x)).trans ?_
    rw [Qualifier.splitValue_of_spaced hwords htext hspace hspace', if_pos hcount]
    have hlength : (quote :: (space ++ (text ++ space') ++ [quote])).length =
        1 + (space ++ (text ++ space')).length + 1 := by
      rw [List.length_cons, List.length_append, List.length_singleton]
      omega
    rw [hlength, ← Nat.add_assoc, ← Nat.add_assoc]
    rfl
  | unquoted hsolid htext =>
    have hplain := isPlainWord_of_notMem hwords hsolid
    have hread : readWords g q start (words.map String.toList).length
        ⟨n + before.length + 1 + after.length, [] ++ (value ++ rest)⟩ = _ :=
      readWords_spaced hg hplain htext nofun hrest
    rw [List.length_map, hcount] at hread
    obtain ⟨x, xs, rfl, hx⟩ := htext.exists_cons hplain
    have hhead : ∀ y ∈ (x :: xs ++ rest).head?, Text.isSpace y = false := by
      rintro y ⟨⟩
      exact Text.isSpace_eq_false_of_isPlain hx
    have hpeek : (some x).filter Grammar.isQuote = none := by
      simpa using fun hquote => not_isPlain_of_isQuote hquote hx
    rw [readValue_colon hbefore hafter (fun x _ => hg x) hhead, List.cons_append, List.head?_cons,
      hpeek]
    refine hread.trans ?_
    simp [Function.comp_def]

/-! ### Tokens -/

/-- A character is read as its token. -/
theorem readToken_of_char? (hallows : g.allows kind.type) (hchar : kind.char? = some x)
    (hx : g.forbids x = false) :
    readToken g ⟨n, x :: rest⟩ = .ok ⟨n, n + 1, kind⟩ ⟨n + 1, rest⟩ := by
  have hkind := Grammar.charToken?_eq_some_iff.2 ⟨hallows, hchar⟩
  have hspace : Text.isSpace x = false := by
    cases kind with
    | qualifier | order | logic | sortBy => cases hchar
    | lparen | rparen | comma =>
      obtain rfl := Option.some.inj hchar
      rfl
  have hword : g.isWordChar x = false := by
    simp [Grammar.isWordChar, Grammar.isSpecial, hkind]
  have hread := readCharToken_cons g n n x rest
  rw [if_neg (by simp [hx]), hkind] at hread
  exact (readToken_char hspace hword).trans (bind_of_ok hread)

/-- A term is read from all of its spellings. -/
theorem readToken_of_term (hg : ∀ x, g.forbids x = false) (hallows : g.allows .qualifier)
    (hwords : q.validate words = .ok ()) (h : q.Spells words text)
    (hrest : ∀ x ∈ rest.head?, g.isWordChar x = false) :
    readToken g ⟨n, text ++ rest⟩ =
      .ok ⟨n, n + text.length, .qualifier q words⟩ ⟨n + text.length, rest⟩ := by
  obtain @⟨name, before, after, value, hname, hbefore, hafter, hvalue⟩ := h
  have hkeyword := Qualifier.keyword_of_spellsName hname
  have hq := Grammar.qualifier?_eq_some_iff.2 ⟨hallows, hkeyword⟩
  have hplain := Grammar.isPlain_of_qualifier? hq
  rw [String.toList_ofList] at hplain
  have hne : name ≠ [] := by
    rintro rfl
    revert hkeyword
    cases q <;> decide
  -- A colon ends a word where there are terms.
  have hhead : ∀ x ∈ (before ++ ':' :: (after ++ (value ++ rest))).head?,
      g.isWordChar x = false := by
    cases before with
    | nil =>
      rintro x ⟨⟩
      simp [Grammar.isWordChar, Grammar.isSpecial, hallows]
    | cons y ys =>
      rintro x ⟨⟩
      simp [Grammar.isWordChar, hbefore y List.mem_cons_self]
  have htext : name ++ (before ++ ':' :: (after ++ value)) ++ rest =
      name ++ (before ++ ':' :: (after ++ (value ++ rest))) := by
    simp only [List.append_assoc, List.cons_append]
  have hlength : n + (name ++ (before ++ ':' :: (after ++ value))).length =
      n + name.length + before.length + 1 + after.length + value.length := by
    simp only [List.length_append, List.length_cons]
    omega
  rw [htext, hlength, readToken_append hne
    (fun x hx => Grammar.isWordChar_of_isPlain (hplain x hx)) (fun x _ => hg x) hhead]
  exact bind_of_ok (readWordToken_of_name hallows hkeyword
    (readValue_of_spells hg hwords hbefore hafter hvalue hrest))

/-- A token is read from all of its spellings. -/
theorem readToken_of_spells (hg : ∀ x, g.forbids x = false) (hkind : g.Admits kind)
    (h : kind.Spells text) (hrest : ∀ x ∈ rest.head?, g.isWordChar x = false) :
    readToken g ⟨n, text ++ rest⟩ = .ok ⟨n, n + text.length, kind⟩ ⟨n + text.length, rest⟩ := by
  cases kind with
  | qualifier q words =>
    exact readToken_of_term hg hkind.allows (hkind.validate q words rfl) h hrest
  | lparen | rparen | comma =>
    obtain rfl : text = _ := h
    exact readToken_of_char? hkind.allows rfl (hg _)
  | order | sortBy =>
    obtain rfl : text = _ := h
    exact readToken_of_keyword? hkind.allows rfl (fun x _ => hg x) hrest
  | logic c =>
    obtain rfl : text = _ := h
    refine readToken_of_keyword? hkind.allows ?_ (fun x _ => hg x) hrest
    cases c <;> rfl

theorem checkValue_of_admits (h : g.Admits kind) (start stop : Nat) :
    checkValue ⟨start, stop, kind⟩ = .ok ⟨start, stop, kind⟩ := by
  cases kind with
  | qualifier q words => simp only [checkValue, h.validate q words rfl]
  | order | logic | lparen | rparen | comma | sortBy => rfl

theorem nextToken_of_spells (hg : ∀ x, g.forbids x = false) (hkind : g.Admits kind)
    (h : kind.Spells text) (hrest : ∀ x ∈ rest.head?, g.isWordChar x = false) :
    nextToken g ⟨n, text ++ rest⟩ = .ok ⟨n, n + text.length, kind⟩ ⟨n + text.length, rest⟩ := by
  rw [nextToken_of_readToken (readToken_of_spells hg hkind h hrest), checkValue_of_admits hkind]

end Lexer

/-! ### Lists of tokens -/

namespace Grammar

theorem tokensFrom_of_token (hg : ∀ x, g.forbids x = false) (hkind : g.Admits kind)
    (h : kind.Spells text) (hrest : ∀ x ∈ rest.head?, g.isWordChar x = false) :
    g.tokensFrom ⟨n, text ++ rest⟩ =
      (g.tokensFrom ⟨n + text.length, rest⟩).map (⟨n, n + text.length, kind⟩ :: ·) :=
  tokensFrom_of_nextToken (Lexer.hasNext_of_readToken (Lexer.readToken_of_spells hg hkind h hrest))
    (Lexer.nextToken_of_spells hg hkind h hrest)

/-- Spellings of tokens with single spaces between them are read as the tokens. -/
theorem tokensFrom_of_spells (hg : ∀ x, g.forbids x = false)
    (hkinds : ∀ kind ∈ kinds, g.Admits kind) (h : List.Forall₂ TokenKind.Spells kinds texts) :
    (g.tokensFrom ⟨n, [' '].intercalate texts⟩).map (List.map Token.kind) = .ok kinds := by
  induction h generalizing n with
  | nil =>
    rw [List.intercalate_nil, tokensFrom_of_not_hasNext rfl]
    rfl
  | @cons kind text kinds texts hspells hrest ih =>
    obtain ⟨hkind, hkinds⟩ := List.forall_mem_cons.1 hkinds
    -- What follows a token is nothing, or a space and the other tokens.
    have hstep (rest : List Char) (hhead : ∀ x ∈ rest.head?, g.isWordChar x = false)
        (h : ∀ n, (g.tokensFrom ⟨n, rest⟩).map (List.map Token.kind) = .ok kinds) :
        (g.tokensFrom ⟨n, text ++ rest⟩).map (List.map Token.kind) = .ok (kind :: kinds) := by
      obtain ⟨ts, hts, rfl⟩ := map_eq_ok_iff.1 (h (n + text.length))
      rw [tokensFrom_of_token hg hkind hspells hhead, hts]
      rfl
    cases hrest with
    | nil =>
      rw [List.intercalate_singleton, ← List.append_nil text]
      exact hstep [] (by simp) fun n => by rw [tokensFrom_of_not_hasNext rfl]; rfl
    | cons =>
      have hspace : ∀ x ∈ [' '], Text.isSpace x := List.forall_mem_singleton.2 rfl
      rw [List.intercalate_cons_cons, List.append_assoc]
      refine hstep _ ?_ fun n => ?_
      · rintro x ⟨⟩
        rfl
      · rw [tokensFrom_skip (fun x _ => hg x) hspace]
        exact ih hkinds

end Grammar

/-! ### What is written -/

theorem Qualifier.spellsName_name (q : Qualifier) : q.SpellsName q.name.toList := by
  cases q <;> rfl

/-- A term that is written without white space around the colon. -/
theorem Qualifier.spells_append (h : SpellsValue words value) :
    q.Spells words (q.name.toList ++ ':' :: value) :=
  .term q.spellsName_name (List.forall_mem_nil _) (List.forall_mem_nil _) h

/-- What is written for a token is one of its spellings. -/
theorem TokenKind.spells_written (hquote : Grammar.isQuote quote) (hkind : g.Admits kind) :
    kind.Spells (kind.written quote).toList := by
  cases kind with
  | order | logic | lparen | rparen | comma | sortBy => rfl
  | qualifier q words =>
    have hwords := hkind.validate q words rfl
    have htext := Text.spaced_intercalate (Qualifier.map_toList_ne_nil_of_validate hwords)
    by_cases hq : q = .groupVersion
    · subst hq
      have hvalue : Qualifier.SpellsValue words _ :=
        .quoted hquote (List.forall_mem_nil _) (List.forall_mem_nil _) htext
      simpa [written, Spells, String.toList_append, String.toList_intercalate] using
        Qualifier.spells_append hvalue
    · have hwritten : (qualifier q words).written quote = (qualifier q words).text := by
        cases q with
        | groupVersion => exact absurd rfl hq
        | _ => rfl
      have hsolid : ∀ word ∈ words, ' ' ∉ word.toList := by
        intro word hword hspace
        obtain ⟨i, hadmits⟩ := Qualifier.exists_admits_of_validate hwords word hword
        cases (Qualifier.isPlainWord_of_admits hadmits hq).isPlain ' ' hspace
      rw [hwritten]
      simpa [text, Spells, String.toList_append, String.toList_intercalate] using
        Qualifier.spells_append (.unquoted hsolid htext)

/-- **Reading what was written.** Any list of tokens that a grammar admits is read from what is
written for it, be the phrases in it in double or in single quotes. And whichever way a term is
spelled, it is read as the same token. -/
theorem tokens_of_spellings (allowed : List TokenType) :
    (∀ quote kinds, Grammar.isQuote quote → (∀ kind ∈ kinds, Grammar.Admits ⟨allowed, []⟩ kind) →
        (Grammar.tokens ⟨allowed, []⟩ (writtenRule quote kinds)).map (List.map Token.kind) =
          .ok kinds) ∧
      ∀ q words text, .qualifier ∈ allowed → q.validate words = .ok () →
        q.Spells words text.toList →
        Grammar.tokens ⟨allowed, []⟩ text = .ok [⟨0, text.length, .qualifier q words⟩] := by
  have hg : ∀ x, Grammar.forbids ⟨allowed, []⟩ x = false := fun _ => rfl
  constructor
  · intro quote kinds hquote hkinds
    have hspells : List.Forall₂ TokenKind.Spells kinds
        ((kinds.map (TokenKind.written quote)).map String.toList) := by
      rw [List.map_map, List.forall₂_map_right_iff, List.forall₂_same]
      exact fun kind hkind => TokenKind.spells_written hquote (hkinds kind hkind)
    rw [Grammar.tokens, Cursor.ofRule, writtenRule, String.toList_intercalate]
    exact Grammar.tokensFrom_of_spells hg hkinds hspells
  · intro q words text hallowed hwords hspells
    have hkind : Grammar.Admits ⟨allowed, []⟩ (.qualifier q words) := by
      refine ⟨List.contains_iff_mem.2 hallowed, ?_⟩
      rintro _ _ ⟨⟩
      exact hwords
    have htokens : Grammar.tokensFrom ⟨allowed, []⟩ ⟨0, text.toList ++ []⟩ = _ :=
      Grammar.tokensFrom_of_token hg hkind hspells (by simp)
    have hend : Grammar.tokensFrom ⟨allowed, []⟩ ⟨0 + text.toList.length, []⟩ = .ok [] :=
      Grammar.tokensFrom_of_not_hasNext rfl
    rw [List.append_nil, hend, Nat.zero_add, String.length_toList] at htokens
    exact htokens

/-- A list of tokens that is no rule, and a term with white space wherever it can be. -/
theorem tokens_of_spellings_loose :
    (Grammar.full.tokens ", GROUP_VERSION:'r 1' SORT_BY or").map (List.map Token.kind) =
        .ok [.comma, .qualifier .groupVersion ["r 1"], .sortBy, .logic .or] ∧
      Grammar.full.tokens "Version\t: \" main\t1.2 \"" =
        .ok [⟨0, 22, .qualifier .version ["main", "1.2"]⟩] := by
  obtain ⟨hlists, hterms⟩ := tokens_of_spellings TokenType.all
  have hphrase : Grammar.full.Admits (.qualifier .groupVersion ["r 1"]) := by
    refine ⟨rfl, ?_⟩
    rintro _ _ ⟨⟩
    decide
  have hkinds : ∀ kind ∈ [.comma, .qualifier .groupVersion ["r 1"], .sortBy, .logic .or],
      Grammar.full.Admits kind :=
    List.forall_mem_cons.2 ⟨⟨rfl, nofun⟩, List.forall_mem_cons.2 ⟨hphrase,
      List.forall_mem_cons.2 ⟨⟨rfl, nofun⟩, List.forall_mem_singleton.2 ⟨rfl, nofun⟩⟩⟩⟩
  have hspace : ∀ x ∈ [' '], Text.isSpace x := List.forall_mem_singleton.2 rfl
  have htab : ∀ x ∈ ['\t'], Text.isSpace x := List.forall_mem_singleton.2 rfl
  have htext : Text.Spaced (["main", "1.2"].map String.toList)
      ("main".toList ++ (['\t'] ++ "1.2".toList)) :=
    .cons (List.cons_ne_nil _ _) htab (.single _)
  have hquote : Grammar.isQuote '"' := rfl
  have hname : Qualifier.SpellsName .version "Version".toList := rfl
  have hterm := Qualifier.Spells.term hname htab hspace (.quoted hquote hspace hspace htext)
  have hlist : writtenRule '\'' [.comma, .qualifier .groupVersion ["r 1"], .sortBy, .logic .or] =
      ", GROUP_VERSION:'r 1' SORT_BY or" := by
    decide +kernel
  exact ⟨hlist ▸ hlists '\'' _ rfl hkinds,
    hterms .version ["main", "1.2"] "Version\t: \" main\t1.2 \"" (by decide) (by decide) hterm⟩

end VersionRules
