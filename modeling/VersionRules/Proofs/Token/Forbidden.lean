import VersionRules.Proofs.Except
import VersionRules.Proofs.Token.Locality

/-!
# Forbidden characters

A grammar forbids characters everywhere in its rules, also inside quotes. Readers pass characters
one by one or in runs. Neither way passes a forbidden one: it is reported where it stands. Up to
there a reader does what it does if nothing is forbidden. So forbidding characters rejects the rules
that contain one, and changes nothing else.

## Main definitions

* `Grammar.free` — the same rules without forbidden characters
* `Lexer.Guarded` — what becomes of a reader where characters are forbidden
* `Grammar.Guarded` — and of a rule

## Main results

* `Lexer.Guarded.bind` — readers one after the other
* `Lexer.guarded_nextToken`, `Grammar.guarded_tokensFrom` — tokens and rules are guarded
* `Grammar.forbids_eq_false_of_tokens` — an accepted rule contains no forbidden character
* `RuleError.Cause.message_eq_forbidden_iff` — no other error reads like that of a forbidden
  character
* `tokens_of_forbidden` — what forbidding characters changes
-/

namespace VersionRules

variable {g : Grammar} {α β : Type} {c c' d : Cursor} {x : Char} {rule : String} {e : RuleError}
  {ts : List Token}

/-- The grammar with the same types of token in which no character is forbidden. -/
def Grammar.free (g : Grammar) : Grammar :=
  ⟨g.allowed, []⟩

namespace Lexer

/-- What becomes of a reader `m` where characters are forbidden, beside `m'` where none is: it does
the same and passes no forbidden character, or it comes to one, reports it and stays before it. -/
inductive Guarded (g : Grammar) (m m' : Lexer α) (c : Cursor) : Prop
  | ok {a : α} {run : List Char} {c' : Cursor} (h : m c = .ok a c') (h' : m' c = .ok a c')
      (hrun : c.Passed run c') (hallowed : ∀ x ∈ run, g.forbids x = false)
  | error {e : RuleError} {run : List Char} {c' : Cursor} (h : m c = .error e c')
      (h' : m' c = .error e c') (hrun : c.Passed run c') (hallowed : ∀ x ∈ run, g.forbids x = false)
      (hcause : ∀ x, e.cause ≠ .forbiddenCharacter x)
  | forbidden {x : Char} {run : List Char} {c' : Cursor}
      (h : m c = .error ⟨.forbiddenCharacter x, .char c'.pos⟩ c') (hrun : c.Passed run c')
      (hallowed : ∀ x ∈ run, g.forbids x = false) (hx : x ∈ c'.rest.head?) (hforbids : g.forbids x)

/-! ### Readers one after the other -/

/-- Characters that were passed before do not matter. -/
theorem Guarded.of_passed {m m' : Lexer α} {f f' : Lexer α} {run : List Char}
    (hrun : c.Passed run d) (hallowed : ∀ x ∈ run, g.forbids x = false) (hm : m c = f d)
    (hm' : m' c = f' d) (h : Guarded g f f' d) : Guarded g m m' c := by
  cases h with
  | ok h h' hrun' hallowed' =>
    exact .ok (hm.trans h) (hm'.trans h') (hrun.trans hrun')
      (List.forall_mem_append.2 ⟨hallowed, hallowed'⟩)
  | error h h' hrun' hallowed' hcause =>
    exact .error (hm.trans h) (hm'.trans h') (hrun.trans hrun')
      (List.forall_mem_append.2 ⟨hallowed, hallowed'⟩) hcause
  | forbidden h hrun' hallowed' hx hforbids =>
    exact .forbidden (hm.trans h) (hrun.trans hrun')
      (List.forall_mem_append.2 ⟨hallowed, hallowed'⟩) hx hforbids

theorem Guarded.bind {m m' : Lexer α} {f f' : α → Lexer β} (hm : Guarded g m m' c)
    (hf : ∀ a d, Guarded g (f a) (f' a) d) : Guarded g (m >>= f) (m' >>= f') c := by
  cases hm with
  | @ok a _ d h h' hrun hallowed =>
    exact .of_passed hrun hallowed (bind_of_ok h) (bind_of_ok h') (hf a d)
  | error h h' hrun hallowed hcause =>
    exact .error (bind_of_error h) (bind_of_error h') hrun hallowed hcause
  | forbidden h hrun hallowed hx hforbids =>
    exact .forbidden (bind_of_error h) hrun hallowed hx hforbids

theorem guarded_pure (a : α) (c : Cursor) : Guarded g (pure a) (pure a) c :=
  .ok rfl rfl (.refl c) nofun

theorem guarded_position (c : Cursor) : Guarded g position position c :=
  .ok rfl rfl (.refl c) nofun

theorem guarded_peek (c : Cursor) : Guarded g peek peek c :=
  .ok rfl rfl (.refl c) nofun

theorem guarded_throw (hcause : ∀ x, e.cause ≠ .forbiddenCharacter x) (c : Cursor) :
    Guarded g (throw e : Lexer α) (throw e) c :=
  .error rfl rfl (.refl c) nofun hcause

theorem guarded_failFrom {cause : RuleError.Cause} (hcause : ∀ x, cause ≠ .forbiddenCharacter x)
    (start : Nat) (c : Cursor) :
    Guarded g (failFrom start cause : Lexer α) (failFrom start cause) c :=
  .error rfl rfl (.refl c) nofun hcause

/-! ### The two ways to pass characters -/

theorem guarded_readWhile (p : Char → Bool) (c : Cursor) :
    Guarded g (readWhile g p) (readWhile g.free p) c := by
  obtain ⟨run, rest, hc, hrun, ⟨hhead, hok⟩ | ⟨x, hx, hforbids, herror⟩⟩ := readWhile_cases g p c
  · have hfree : readWhile g.free p ⟨c.pos, run ++ rest⟩ = .ok run ⟨c.pos + run.length, rest⟩ :=
      readWhile_append (fun x hx => (hrun x hx).1) (fun _ _ => rfl) hhead
    rw [← hc] at hfree
    exact .ok hok hfree ⟨hc, rfl⟩ fun x hx => (hrun x hx).2
  · have hpassed : c.Passed run ⟨c.pos + run.length, rest⟩ := ⟨hc, rfl⟩
    exact .forbidden herror hpassed (fun x hx => (hrun x hx).2) hx hforbids

theorem guarded_advance (c : Cursor) : Guarded g (advance g) (advance g.free) c := by
  obtain ⟨n, rest⟩ := c
  cases rest with
  | nil => exact .ok rfl rfl (.refl _) nofun
  | cons x rest =>
    by_cases hx : g.forbids x
    · exact .forbidden (if_pos hx) (.refl _) (List.forall_mem_nil _) rfl hx
    · have hx : g.forbids x = false := by simpa using hx
      exact .ok (advance_cons hx) (advance_cons rfl) ⟨rfl, rfl⟩ (List.forall_mem_singleton.2 hx)

/-! ### The readers of the rule language -/

theorem guarded_skipSpace (c : Cursor) : Guarded g (skipSpace g) (skipSpace g.free) c :=
  (guarded_readWhile _ c).bind fun _ d => guarded_pure _ d

theorem guarded_readQuoted (quote : Char) (start : Nat) (c : Cursor) :
    Guarded g (readQuoted g quote start) (readQuoted g.free quote start) c := by
  unfold readQuoted
  refine (guarded_advance c).bind fun _ c => (guarded_readWhile _ c).bind fun text c => ?_
  refine (guarded_peek c).bind ?_
  rintro (- | x) c
  · exact guarded_failFrom (by nofun) start c
  · exact (guarded_advance c).bind fun _ c => guarded_pure text c

theorem guarded_readWords (q : Qualifier) (start count : Nat) (c : Cursor) :
    Guarded g (readWords g q start count) (readWords g.free q start count) c := by
  induction count generalizing c with
  | zero => exact guarded_pure [] c
  | succ count ih =>
    refine (guarded_skipSpace c).bind fun _ c => (guarded_readWhile _ c).bind ?_
    rintro (- | ⟨x, xs⟩) c
    · exact guarded_failFrom (by nofun) start c
    · exact (ih c).bind fun _ c => guarded_pure _ c

theorem guarded_readValue (q : Qualifier) (start : Nat) (c : Cursor) :
    Guarded g (readValue g q start) (readValue g.free q start) c := by
  unfold readValue
  refine (guarded_skipSpace c).bind fun _ c => (guarded_peek c).bind fun x c => ?_
  by_cases hcolon : x = some ':'
  · simp only [if_pos hcolon]
    refine (guarded_advance c).bind fun _ c => (guarded_skipSpace c).bind fun _ c => ?_
    refine (guarded_peek c).bind fun y c => ?_
    cases y.filter Grammar.isQuote with
    | none => exact guarded_readWords q start q.arity c
    | some quote =>
      refine (guarded_readQuoted quote start c).bind fun text c => ?_
      by_cases hcount : (q.splitValue text).length = q.arity
      · simp only [if_pos hcount]
        exact guarded_pure _ c
      · simp only [if_neg hcount]
        exact guarded_failFrom (by nofun) start c
  · simp only [if_neg hcolon]
    exact guarded_failFrom (by nofun) start c

theorem guarded_readCharToken (x : Char) (start : Nat) (c : Cursor) :
    Guarded g (readCharToken g x start) (readCharToken g.free x start) c := by
  have hfree : g.free.charToken? x = g.charToken? x := rfl
  simp only [readCharToken, hfree]
  cases g.charToken? x with
  | some kind => exact (guarded_advance c).bind fun _ c => guarded_pure kind c
  | none => exact (guarded_advance c).bind fun _ c => guarded_failFrom (by nofun) start c

theorem guarded_readWordToken (word : String) (start : Nat) (c : Cursor) :
    Guarded g (readWordToken g word start) (readWordToken g.free word start) c := by
  have hword : g.free.wordToken? word = g.wordToken? word := rfl
  have hname : g.free.qualifier? word = g.qualifier? word := rfl
  simp only [readWordToken, hword, hname]
  cases g.wordToken? word with
  | some kind => exact guarded_pure kind c
  | none =>
    cases g.qualifier? word with
    | some q => exact (guarded_readValue q start c).bind fun _ c => guarded_pure _ c
    | none => exact guarded_failFrom (by nofun) start c

theorem guarded_readToken (c : Cursor) : Guarded g (readToken g) (readToken g.free) c := by
  unfold readToken
  refine (guarded_position c).bind fun before c => (guarded_skipSpace c).bind fun _ c => ?_
  refine (guarded_peek c).bind ?_
  rintro (- | x) c
  · exact guarded_failFrom (by nofun) before c
  · refine (guarded_position c).bind fun start c => (guarded_readWhile _ c).bind fun word c => ?_
    have hend (kind : TokenKind) (c : Cursor) :
        Guarded g (do return ⟨start, ← position, kind⟩ : Lexer Token)
          (do return ⟨start, ← position, kind⟩) c :=
      (guarded_position c).bind fun stop c => guarded_pure _ c
    cases word with
    | nil => exact (guarded_readCharToken x start c).bind hend
    | cons y ys => exact (guarded_readWordToken _ start c).bind hend

/-- The check of a value is about no forbidden character. -/
theorem cause_ne_of_checkValue {t : Token} (h : checkValue t = .error e) (x : Char) :
    e.cause ≠ .forbiddenCharacter x := by
  unfold checkValue at h
  split at h
  · split at h
    · cases h
    · obtain rfl := Except.error.inj h
      nofun
  · cases h

/-- A token is guarded against forbidden characters. -/
theorem guarded_nextToken (c : Cursor) : Guarded g (nextToken g) (nextToken g.free) c := by
  refine (guarded_readToken c).bind fun t c => ?_
  cases ht : checkValue t with
  | ok t => exact guarded_pure t c
  | error e => exact guarded_throw (cause_ne_of_checkValue ht) c

end Lexer

/-! ### Rules -/

/-- What becomes of the rest of a rule where characters are forbidden: it has the tokens, or the
error, that it has where none is, or a forbidden character in it is reported. An accepted rule has
no forbidden character in it, unless it is white space behind the last token, which is not read. -/
inductive Grammar.Guarded (g : Grammar) (c : Cursor) : Prop
  | ok {ts : List Token} (h : g.tokensFrom c = .ok ts) (h' : g.free.tokensFrom c = .ok ts)
      (hallowed : ∀ x ∈ c.rest, Text.isSpace x = false → g.forbids x = false)
  | error {e : RuleError} (h : g.tokensFrom c = .error e) (h' : g.free.tokensFrom c = .error e)
      (hcause : ∀ x, e.cause ≠ .forbiddenCharacter x)
  | forbidden {x : Char} {run : List Char} {c' : Cursor}
      (h : g.tokensFrom c = .error ⟨.forbiddenCharacter x, .char c'.pos⟩) (hrun : c.Passed run c')
      (hallowed : ∀ x ∈ run, g.forbids x = false) (hx : x ∈ c'.rest.head?) (hforbids : g.forbids x)

namespace Grammar

theorem guarded_tokensFrom (g : Grammar) (c : Cursor) : g.Guarded c := by
  fun_induction tokensFrom g c with
  | case1 c hnext t c' ht ih =>
    have hstep := tokensFrom_of_nextToken hnext ht
    cases Lexer.guarded_nextToken c with
    | error h => cases h.symm.trans ht
    | forbidden h => cases h.symm.trans ht
    | ok h h' hrun hallowed =>
      obtain ⟨rfl, rfl⟩ := EStateM.Result.ok.inj (h.symm.trans ht)
      have hstep' := tokensFrom_of_nextToken hnext h'
      cases ih with
      | ok hts hts' hrest =>
        refine .ok (hstep.trans (by rw [hts]; rfl)) (hstep'.trans (by rw [hts']; rfl)) ?_
        rw [hrun.rest_eq]
        exact List.forall_mem_append.2 ⟨fun x hx _ => hallowed x hx, hrest⟩
      | error he he' hcause =>
        exact .error (hstep.trans (by rw [he]; rfl)) (hstep'.trans (by rw [he']; rfl)) hcause
      | forbidden he hrun' hallowed' hx hforbids =>
        exact .forbidden (hstep.trans (by rw [he]; rfl)) (hrun.trans hrun')
          (List.forall_mem_append.2 ⟨hallowed, hallowed'⟩) hx hforbids
  | case2 c hnext e c' he =>
    cases Lexer.guarded_nextToken c with
    | ok h => cases h.symm.trans he
    | error h h' _ _ hcause =>
      obtain ⟨rfl, rfl⟩ := EStateM.Result.error.inj (h.symm.trans he)
      exact .error (tokensFrom_of_error hnext h) (tokensFrom_of_error hnext h') hcause
    | forbidden h hrun hallowed hx hforbids =>
      exact .forbidden (tokensFrom_of_error hnext h) hrun hallowed hx hforbids
  | case3 c hnext =>
    have hnext : c.hasNext = false := by simpa using hnext
    refine .ok (tokensFrom_of_not_hasNext hnext) (tokensFrom_of_not_hasNext hnext) ?_
    -- Behind the last token there is white space only.
    have hspace : ∀ x ∈ c.rest, Text.isSpace x = true := by simpa [Cursor.hasNext] using hnext
    intro x hx hx'
    cases (hspace x hx).symm.trans hx'

/-- A rule that is split into tokens contains no forbidden character, be it in a word, inside quotes
or behind the last token. -/
theorem forbids_eq_false_of_tokens (h : g.tokens rule = .ok ts) :
    ∀ x ∈ rule.toList, Text.isSpace x = false → g.forbids x = false := by
  cases guarded_tokensFrom g (.ofRule rule) with
  | ok _ _ hallowed => exact hallowed
  | error he => cases he.symm.trans h
  | forbidden he => cases he.symm.trans h

/-- If no white space is forbidden, then the rules that are accepted are those without forbidden
characters that are accepted where none is forbidden. -/
theorem tokens_eq_ok_iff_free (hspace : ∀ x, Text.isSpace x → g.forbids x = false) :
    g.tokens rule = .ok ts ↔
      g.free.tokens rule = .ok ts ∧ ∀ x ∈ rule.toList, g.forbids x = false := by
  constructor
  · intro h
    refine ⟨?_, fun x hx => ?_⟩
    · cases guarded_tokensFrom g (.ofRule rule) with
      | ok hts hfree => exact hfree.trans (hts.symm.trans h)
      | error he => cases he.symm.trans h
      | forbidden he => cases he.symm.trans h
    · by_cases hblank : Text.isSpace x
      · exact hspace x hblank
      · exact forbids_eq_false_of_tokens h x hx (by simpa using hblank)
  · rintro ⟨h, hallowed⟩
    cases guarded_tokensFrom g (.ofRule rule) with
    | ok hts hfree => exact hts.trans (hfree.symm.trans h)
    | error _ hfree => cases hfree.symm.trans h
    | @forbidden x run c' _ hrun _ hx hforbids =>
      have hrule : rule.toList = run ++ c'.rest := hrun.rest_eq
      have hmem : x ∈ rule.toList := hrule ▸ List.mem_append_right run (List.mem_of_mem_head? hx)
      cases (hallowed x hmem).symm.trans hforbids

/-- A forbidden character that is reported is the first one of the rule. -/
theorem exists_first_forbidden (h : g.tokens rule = .error e)
    (hcause : e.cause = .forbiddenCharacter x) :
    ∃ p, e.place = .char p ∧ rule.toList[p]? = some x ∧ g.forbids x ∧
      ∀ y ∈ rule.toList.take p, g.forbids y = false := by
  cases guarded_tokensFrom g (.ofRule rule) with
  | ok hts => cases hts.symm.trans h
  | error he _ hne =>
    obtain rfl := Except.error.inj (he.symm.trans h)
    exact absurd hcause (hne x)
  | @forbidden _ run c' he hrun hallowed hx hforbids =>
    obtain rfl := Except.error.inj (he.symm.trans h)
    obtain rfl := RuleError.Cause.forbiddenCharacter.inj hcause
    refine ⟨c'.pos, rfl, hrun.getElem?_eq.trans hx, hforbids, ?_⟩
    rw [hrun.take_eq]
    exact hallowed

end Grammar

/-! ### The error of a forbidden character -/

/-- No other error reads like that of a forbidden character. -/
theorem RuleError.Cause.message_eq_forbidden_iff {cause : Cause} :
    cause.message = (forbiddenCharacter x).message ↔ cause = forbiddenCharacter x := by
  refine ⟨fun h => ?_, congrArg message⟩
  -- All other messages begin with other characters.
  have hbegin : cause.message.toList.take 2 = ['C', 'h'] := by
    rw [h]
    delta message
    simp
  cases cause with
  | forbiddenCharacter y =>
    have h : "Character '" ++ y.toString ++ "' is not allowed." =
        "Character '" ++ x.toString ++ "' is not allowed." := h
    rw [String.append_left_inj, String.append_right_inj] at h
    simpa using h
  | badValue e =>
    delta message at hbegin
    cases e <;> simp [Qualifier.ValueError.message] at hbegin
  | badNeighbour token next =>
    delta message at hbegin
    cases next <;> simp at hbegin
  | _ =>
    delta message at hbegin
    simp at hbegin

/-- **Forbidding characters only removes rules.** Where characters other than white space are
forbidden, a rule is split into tokens exactly if it is so where none is, and has none of these
characters anywhere. An error about a forbidden character is about the first one of the rule, and
says where it is. -/
theorem tokens_of_forbidden {forbidden : List Char}
    (hforbidden : ∀ x ∈ forbidden, Text.isSpace x = false) (allowed : List TokenType)
    (rule : String) :
    (∀ ts, Grammar.tokens ⟨allowed, forbidden⟩ rule = .ok ts ↔
        Grammar.tokens ⟨allowed, []⟩ rule = .ok ts ∧ ∀ x ∈ rule.toList, x ∉ forbidden) ∧
      ∀ e x, Grammar.tokens ⟨allowed, forbidden⟩ rule = .error e →
        e.message = "Character '" ++ x.toString ++ "' is not allowed." →
        ∃ p, e.place = .char p ∧ rule.toList[p]? = some x ∧ x ∈ forbidden ∧
          ∀ y ∈ rule.toList.take p, y ∉ forbidden := by
  have hforbids (x : Char) : Grammar.forbids ⟨allowed, forbidden⟩ x = false ↔ x ∉ forbidden := by
    simp [Grammar.forbids]
  have hspace : ∀ x, Text.isSpace x → Grammar.forbids ⟨allowed, forbidden⟩ x = false := by
    intro x hx
    rw [hforbids]
    intro hmem
    cases (hforbidden x hmem).symm.trans hx
  constructor
  · intro ts
    simp only [← hforbids]
    exact Grammar.tokens_eq_ok_iff_free hspace
  · intro e x he hmessage
    have hcause := RuleError.Cause.message_eq_forbidden_iff.1 hmessage
    obtain ⟨p, hplace, hx, hmem, htake⟩ := Grammar.exists_first_forbidden he hcause
    refine ⟨p, hplace, hx, List.contains_iff_mem.1 hmem, ?_⟩
    exact fun y hy => (hforbids y).1 (htake y hy)

/-- A forbidden comma: a rule without one, and a rule with two, the first of which is in quotes. -/
theorem tokens_of_forbidden_comma :
    Grammar.tokens ⟨[.qualifier], [',']⟩ "build:1" = .ok [⟨0, 7, .qualifier .build ["1"]⟩] ∧
      Grammar.tokens ⟨[.qualifier], [',']⟩ "type:'a,b' build:1,2" =
        .error ⟨.forbiddenCharacter ',', .char 7⟩ ∧
      ∃ p, Place.char 7 = .char p ∧ "type:'a,b' build:1,2".toList[p]? = some ',' ∧ ',' ∈ [','] ∧
        ∀ y ∈ "type:'a,b' build:1,2".toList.take p, y ∉ [','] := by
  have hcomma : ∀ x ∈ [','], Text.isSpace x = false := List.forall_mem_singleton.2 rfl
  have haccepted : Grammar.tokens ⟨[.qualifier], []⟩ "build:1" =
      .ok [⟨0, 7, .qualifier .build ["1"]⟩] := by
    decide +kernel
  have hrejected : Grammar.tokens ⟨[.qualifier], [',']⟩ "type:'a,b' build:1,2" =
      .error ⟨.forbiddenCharacter ',', .char 7⟩ := by
    decide +kernel
  have hfree : ∀ y ∈ "build:1".toList, y ∉ [','] := by simp
  refine ⟨((tokens_of_forbidden hcomma [.qualifier] "build:1").1 _).2 ⟨haccepted, hfree⟩,
    hrejected, ?_⟩
  exact (tokens_of_forbidden hcomma [.qualifier] _).2 _ _ hrejected rfl

end VersionRules
