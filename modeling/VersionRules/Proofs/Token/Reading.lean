import VersionRules.Token.Sequence

/-!
# What readers read

A reader is followed step by step: what it does on characters that are known to lie before it, and
where it leaves the cursor. Whatever comes behind is left alone, as long as it does not go on with
what was read.

## Main definitions

* `Lexer.TokenRead` — how a token is read, as a single character or from a word on

## Main results

* `Lexer.readWhile_append` — a run of characters is read up to the first one of another kind
* `Lexer.readValue_colon` — white space around the colon of a term is passed
* `Lexer.readValue_quoted` — a quoted value is split into words, and the words are counted
* `Lexer.readToken_eq_ok_iff` — a token is read in one of the two ways
* `Lexer.readToken_append` — a token that begins with a word is what the word says
* `Grammar.forall_mem_of_invariant`, `Grammar.forall_mem_of_tokensFrom` — what holds of every token
  that can be read holds of all tokens of a rule
* `Grammar.exists_nextToken_eq_error` — the error of a rule is that of one of its tokens
-/

namespace VersionRules

variable {g : Grammar} {α β : Type} {c c' : Cursor} {n start stop : Nat} {quote x : Char}
  {run rest space before after text word : List Char} {q : Qualifier} {words : List String}
  {kind : TokenKind} {t : Token} {e : RuleError}

theorem Grammar.isSpace_eq_false_of_isWordChar (h : g.isWordChar x) : Text.isSpace x = false := by
  simp only [isWordChar, Bool.and_eq_true, Bool.not_eq_true'] at h
  exact h.1

namespace Lexer

theorem bind_of_ok {m : Lexer α} {f : α → Lexer β} {a : α} (h : m c = .ok a c') :
    (m >>= f) c = f a c' := by
  show EStateM.bind m f c = _
  rw [EStateM.bind, h]

theorem bind_of_error {m : Lexer α} {f : α → Lexer β} (h : m c = .error e c') :
    (m >>= f) c = .error e c' := by
  show EStateM.bind m f c = _
  rw [EStateM.bind, h]

theorem position_eq (c : Cursor) : position c = .ok c.pos c :=
  rfl

theorem peek_cons : peek ⟨n, x :: rest⟩ = .ok (some x) ⟨n, x :: rest⟩ :=
  rfl

/-! ### Runs of characters -/

/-- A run of characters is read up to the first one of another kind. -/
theorem readWhile_append {p : Char → Bool} (hrun : ∀ x ∈ run, p x)
    (hallowed : ∀ x ∈ run, g.forbids x = false) (hrest : ∀ x ∈ rest.head?, p x = false) :
    readWhile g p ⟨n, run ++ rest⟩ = .ok run ⟨n + run.length, rest⟩ := by
  have hall : ∀ x ∈ run, (p x && !g.forbids x) = true := by
    intro x hx
    simp [hrun x hx, hallowed x hx]
  -- A character that is not part of the run ends it, be it forbidden or not.
  have hstop : rest.takeWhile (fun x => p x && !g.forbids x) = [] := by
    cases rest with
    | nil => rfl
    | cons x rest => simp [hrest x rfl]
  have htake : (run ++ rest).takeWhile (fun x => p x && !g.forbids x) = run := by
    rw [List.takeWhile_append_of_pos hall, hstop, List.append_nil]
  simp only [readWhile, htake, Cursor.skip, List.drop_left]
  cases rest with
  | nil => rfl
  | cons x rest => simp [hrest x rfl]

/-- White space is passed up to the next other character. -/
theorem skipSpace_append (hspace : ∀ x ∈ space, Text.isSpace x)
    (hallowed : ∀ x ∈ space, g.forbids x = false)
    (hrest : ∀ x ∈ rest.head?, Text.isSpace x = false) :
    skipSpace g ⟨n, space ++ rest⟩ = .ok () ⟨n + space.length, rest⟩ :=
  bind_of_ok (readWhile_append hspace hallowed hrest)

theorem skipSpace_of_head? (h : ∀ x ∈ rest.head?, Text.isSpace x = false) :
    skipSpace g ⟨n, rest⟩ = .ok () ⟨n, rest⟩ :=
  show skipSpace g ⟨n, [] ++ rest⟩ = .ok () ⟨n, rest⟩ from skipSpace_append nofun nofun h

theorem skipSpace_cons (h : Text.isSpace x = false) :
    skipSpace g ⟨n, x :: rest⟩ = .ok () ⟨n, x :: rest⟩ :=
  skipSpace_of_head? (by simpa using h)

theorem advance_cons (h : g.forbids x = false) :
    advance g ⟨n, x :: rest⟩ = .ok () ⟨n + 1, rest⟩ := by
  simp [advance, h]

/-! ### Quoted values -/

/-- What stands between two quotes is read up to the second one, which is passed. -/
theorem readQuoted_append (htext : quote ∉ text) (hquote : g.forbids quote = false)
    (hallowed : ∀ x ∈ text, g.forbids x = false) :
    readQuoted g quote start ⟨n, quote :: (text ++ quote :: rest)⟩ =
      .ok text ⟨n + 1 + text.length + 1, rest⟩ := by
  have hrun : ∀ x ∈ text, (x != quote) = true := by
    intro x hx
    exact bne_iff_ne.2 (ne_of_mem_of_not_mem hx htext)
  have hstop : ∀ x ∈ (quote :: rest).head?, (x != quote) = false := by simp
  rw [readQuoted, bind_of_ok (advance_cons hquote),
    bind_of_ok (readWhile_append hrun hallowed hstop), bind_of_ok peek_cons]
  exact bind_of_ok (advance_cons hquote)

theorem isSpace_eq_false_of_isQuote (h : Grammar.isQuote quote) : Text.isSpace quote = false := by
  simp only [Grammar.isQuote, Bool.or_eq_true, beq_iff_eq] at h
  rcases h with rfl | rfl <;> rfl

/-- White space around the colon is passed, and the value may be quoted. -/
theorem readValue_colon (hbefore : ∀ x ∈ before, Text.isSpace x)
    (hafter : ∀ x ∈ after, Text.isSpace x)
    (hallowed : ∀ x ∈ before ++ ':' :: after, g.forbids x = false)
    (hrest : ∀ x ∈ rest.head?, Text.isSpace x = false) :
    readValue g q start ⟨n, before ++ ':' :: (after ++ rest)⟩ =
      (match rest.head?.filter Grammar.isQuote with
        | some quote => do
          let words := q.splitValue (← readQuoted g quote start)
          if words.length = q.arity then return words else failFrom start (.quotedWordCount q.arity)
        | none => readWords g q start q.arity : Lexer (List String))
        ⟨n + before.length + 1 + after.length, rest⟩ := by
  obtain ⟨hforbids, hallowed⟩ := List.forall_mem_append.1 hallowed
  obtain ⟨hcolon, hallowed⟩ := List.forall_mem_cons.1 hallowed
  have hhead : ∀ x ∈ (':' :: (after ++ rest)).head?, Text.isSpace x = false := by
    rintro x ⟨⟩
    rfl
  rw [readValue, bind_of_ok (skipSpace_append hbefore hforbids hhead), bind_of_ok peek_cons,
    if_pos rfl, bind_of_ok (advance_cons hcolon),
    bind_of_ok (skipSpace_append hafter hallowed hrest)]
  rfl

/-- A quoted value is split into words, which have to be as many as the qualifier asks for. -/
theorem readValue_quoted (hquote : Grammar.isQuote quote) (htext : quote ∉ text)
    (hallowed : ∀ x ∈ ':' :: quote :: text, g.forbids x = false) :
    readValue g q start ⟨n, ':' :: quote :: (text ++ quote :: rest)⟩ =
      (if (q.splitValue text).length = q.arity then return q.splitValue text
        else failFrom start (.quotedWordCount q.arity) : Lexer (List String))
        ⟨n + 1 + 1 + text.length + 1, rest⟩ := by
  obtain ⟨hcolon, hallowed⟩ := List.forall_mem_cons.1 hallowed
  obtain ⟨hforbids, hallowed⟩ := List.forall_mem_cons.1 hallowed
  have hpeek : (some quote).filter Grammar.isQuote = some quote := by
    simp [hquote]
  have hhead : ∀ x ∈ (quote :: (text ++ quote :: rest)).head?, Text.isSpace x = false := by
    rintro x ⟨⟩
    exact isSpace_eq_false_of_isQuote hquote
  have hvalue :
      readValue g q start ⟨n, [] ++ ':' :: ([] ++ quote :: (text ++ quote :: rest))⟩ = _ :=
    readValue_colon nofun nofun (List.forall_mem_singleton.2 hcolon) hhead
  rw [List.head?_cons, hpeek] at hvalue
  exact hvalue.trans (bind_of_ok (readQuoted_append htext hforbids hallowed))

/-! ### Tokens -/

/-- How a token is read: behind white space, as a single character or from a word on. -/
inductive TokenRead (g : Grammar) (c : Cursor) : Token → Cursor → Prop
  | char {x : Char} {kind : TokenKind} {d c' : Cursor} (hspace : skipSpace g c = .ok () d)
      (hhead : x ∈ d.rest.head?) (hword : readWord g d = .ok [] d)
      (hkind : readCharToken g x d.pos d = .ok kind c') : TokenRead g c ⟨d.pos, c'.pos, kind⟩ c'
  | word {x : Char} {word : List Char} {kind : TokenKind} {d d' c' : Cursor}
      (hspace : skipSpace g c = .ok () d) (hhead : x ∈ d.rest.head?)
      (hword : readWord g d = .ok word d') (hne : word ≠ [])
      (hkind : readWordToken g (String.ofList word) d.pos d' = .ok kind c') :
      TokenRead g c ⟨d.pos, c'.pos, kind⟩ c'

theorem eq_of_readWhile_nil {p : Char → Bool} (h : readWhile g p c = .ok [] c') : c' = c := by
  simp only [readWhile] at h
  generalize (c.rest.takeWhile fun x => p x && !g.forbids x) = run at h
  split at h
  · split at h
    · cases h
    · obtain ⟨rfl, rfl⟩ := EStateM.Result.ok.inj h
      rfl
  · obtain ⟨rfl, rfl⟩ := EStateM.Result.ok.inj h
    rfl

theorem readToken_eq_ok_iff : readToken g c = .ok t c' ↔ TokenRead g c t c' := by
  constructor
  · intro h
    obtain ⟨_, c₁, h₁, h⟩ := bind_eq_ok.1 h
    obtain ⟨-, rfl⟩ := position_eq_ok.1 h₁
    obtain ⟨_, d, hspace, h⟩ := bind_eq_ok.1 h
    obtain ⟨x, d₁, h₂, h⟩ := bind_eq_ok.1 h
    obtain ⟨hhead, rfl⟩ := peek_eq_ok.1 h₂
    cases x with
    | none => exact absurd h failFrom_ne_ok
    | some x =>
      obtain ⟨_, d₂, h₃, h⟩ := bind_eq_ok.1 h
      obtain ⟨rfl, rfl⟩ := position_eq_ok.1 h₃
      obtain ⟨word, d', hword, h⟩ := bind_eq_ok.1 h
      have hend {kind : TokenKind} {e : Cursor}
          (h : (do return ⟨d.pos, ← position, kind⟩ : Lexer Token) e = .ok t c') :
          (⟨d.pos, c'.pos, kind⟩ : Token) = t ∧ e = c' := by
        obtain ⟨_, e', h₄, h⟩ := bind_eq_ok.1 h
        obtain ⟨rfl, rfl⟩ := position_eq_ok.1 h₄
        obtain ⟨rfl, rfl⟩ := pure_eq_ok.1 h
        exact ⟨rfl, rfl⟩
      cases word with
      | nil =>
        obtain rfl := eq_of_readWhile_nil hword
        obtain ⟨kind, e, hkind, h⟩ := bind_eq_ok.1 h
        obtain ⟨rfl, rfl⟩ := hend h
        exact .char hspace hhead hword hkind
      | cons y ys =>
        obtain ⟨kind, e, hkind, h⟩ := bind_eq_ok.1 h
        obtain ⟨rfl, rfl⟩ := hend h
        exact .word hspace hhead hword (List.cons_ne_nil y ys) hkind
  · intro h
    cases h with
    | @char x kind d c' hspace hhead hword hkind =>
      have hpeek : peek d = .ok (some x) d := peek_eq_ok.2 ⟨hhead, rfl⟩
      rw [readToken, bind_of_ok (position_eq c), bind_of_ok hspace, bind_of_ok hpeek]
      exact (bind_of_ok (position_eq d)).trans ((bind_of_ok hword).trans (bind_of_ok hkind))
    | @word x word kind d d' c' hspace hhead hword hne hkind =>
      obtain ⟨y, ys, rfl⟩ := List.exists_cons_of_ne_nil hne
      have hpeek : peek d = .ok (some x) d := peek_eq_ok.2 ⟨hhead, rfl⟩
      rw [readToken, bind_of_ok (position_eq c), bind_of_ok hspace, bind_of_ok hpeek]
      exact (bind_of_ok (position_eq d)).trans ((bind_of_ok hword).trans (bind_of_ok hkind))

/-- What begins at a character other than white space is told by the word that begins there. -/
theorem readToken_of_readWord (hx : Text.isSpace x = false)
    (h : readWord g ⟨n, x :: rest⟩ = .ok word c) :
    readToken g ⟨n, x :: rest⟩ =
      (do
        let kind ← match word with
          | [] => readCharToken g x n
          | word => readWordToken g (String.ofList word) n
        return ⟨n, ← position, kind⟩ : Lexer Token) c := by
  rw [readToken, bind_of_ok (position_eq _), bind_of_ok (skipSpace_cons hx), bind_of_ok peek_cons]
  refine (bind_of_ok (position_eq _)).trans ((bind_of_ok h).trans ?_)
  cases word <;> rfl

theorem readToken_of_readWord_error (hx : Text.isSpace x = false)
    (h : readWord g ⟨n, x :: rest⟩ = .error e c) : readToken g ⟨n, x :: rest⟩ = .error e c := by
  rw [readToken, bind_of_ok (position_eq _), bind_of_ok (skipSpace_cons hx), bind_of_ok peek_cons]
  exact (bind_of_ok (position_eq _)).trans (bind_of_error h)

/-- A token that begins with a word is what the word says, read on from behind the word. -/
theorem readToken_append (hne : word ≠ []) (hword : ∀ x ∈ word, g.isWordChar x)
    (hallowed : ∀ x ∈ word, g.forbids x = false)
    (hrest : ∀ x ∈ rest.head?, g.isWordChar x = false) :
    readToken g ⟨n, word ++ rest⟩ =
      (do
        let kind ← readWordToken g (String.ofList word) n
        return ⟨n, ← position, kind⟩ : Lexer Token) ⟨n + word.length, rest⟩ := by
  obtain ⟨x, xs, rfl⟩ := List.exists_cons_of_ne_nil hne
  -- A word does not begin with white space, so nothing is skipped before it.
  have hspace := Grammar.isSpace_eq_false_of_isWordChar (hword x List.mem_cons_self)
  exact readToken_of_readWord hspace (readWhile_append hword hallowed hrest)

/-- Whether a token is accepted, and why it is not, does not depend on where it stands. -/
theorem checkValue_cases (kind : TokenKind) :
    (∀ start stop, checkValue ⟨start, stop, kind⟩ = .ok ⟨start, stop, kind⟩) ∨
      ∃ cause, ∀ start stop,
        checkValue ⟨start, stop, kind⟩ = .error (.atToken cause ⟨start, stop, kind⟩) := by
  simp only [checkValue]
  cases kind with
  | qualifier q words =>
    cases hvalidate : q.validate words with
    | ok => exact .inl fun _ _ => by simp only [hvalidate]
    | error e => exact .inr ⟨.badValue e, fun _ _ => by simp only [hvalidate]⟩
  | order | logic | lparen | rparen | comma | sortBy => exact .inl fun _ _ => rfl

/-- A token that has been read is checked before it is passed on. -/
theorem nextToken_of_readToken (h : readToken g c = .ok t c') :
    nextToken g c =
      match checkValue t with
      | .ok t => .ok t c'
      | .error e => .error e c' := by
  rw [nextToken, bind_of_ok h]
  cases checkValue t <;> rfl

/-- A qualifier term is passed on if its words are a value of the qualifier. -/
theorem nextToken_of_valid (h : readToken g c = .ok ⟨start, stop, .qualifier q words⟩ c')
    (hwords : q.validate words = .ok ()) :
    nextToken g c = .ok ⟨start, stop, .qualifier q words⟩ c' := by
  rw [nextToken_of_readToken h]
  simp only [checkValue, hwords]

theorem nextToken_of_invalid (h : readToken g c = .ok ⟨start, stop, .qualifier q words⟩ c')
    {e : Qualifier.ValueError} (hwords : q.validate words = .error e) :
    nextToken g c = .error (.atToken (.badValue e) ⟨start, stop, .qualifier q words⟩) c' := by
  rw [nextToken_of_readToken h]
  simp only [checkValue, hwords]

theorem nextToken_of_error (h : readToken g c = .error e c') : nextToken g c = .error e c' :=
  bind_of_error h

end Lexer

namespace Grammar

theorem tokensFrom_of_not_hasNext (h : c.hasNext = false) : g.tokensFrom c = .ok [] := by
  rw [tokensFrom, h]
  rfl

theorem tokensFrom_of_nextToken (hc : c.hasNext) (h : Lexer.nextToken g c = .ok t c') :
    g.tokensFrom c = (g.tokensFrom c').map (t :: ·) := by
  rw [tokensFrom, if_pos hc]
  split
  · next h' =>
    obtain ⟨rfl, rfl⟩ := EStateM.Result.ok.inj (h.symm.trans h')
    rfl
  · next h' => cases h.symm.trans h'

theorem tokensFrom_of_error (hc : c.hasNext) (h : Lexer.nextToken g c = .error e c') :
    g.tokensFrom c = .error e := by
  rw [tokensFrom, if_pos hc]
  split
  · next h' => cases h.symm.trans h'
  · next h' =>
    obtain ⟨rfl, rfl⟩ := EStateM.Result.error.inj (h.symm.trans h')
    rfl

/-- What every token satisfies that is read where an invariant of the cursor holds, all tokens of a
rule satisfy. -/
theorem forall_mem_of_invariant {I : Cursor → Prop} {P : Token → Prop}
    (hstep : ∀ c t c', I c → c.hasNext → Lexer.nextToken g c = .ok t c' → P t ∧ I c') (hc : I c)
    {ts : List Token} (h : g.tokensFrom c = .ok ts) : ∀ t ∈ ts, P t := by
  fun_induction tokensFrom g c generalizing ts with
  | case1 c hnext t c' ht ih =>
    obtain ⟨hP, hc'⟩ := hstep c t c' hc hnext ht
    cases hrest : g.tokensFrom c' with
    | error e =>
      rw [hrest] at h
      cases h
    | ok rest =>
      rw [hrest] at h
      obtain rfl := Except.ok.inj h
      exact List.forall_mem_cons.2 ⟨hP, ih hc' hrest⟩
  | case2 => cases h
  | case3 =>
    obtain rfl := Except.ok.inj h
    exact nofun

/-- The error of a rule is that of reading one token, where an invariant of the cursor holds. -/
theorem exists_nextToken_eq_error {I : Cursor → Prop}
    (hstep : ∀ c t c', I c → c.hasNext → Lexer.nextToken g c = .ok t c' → I c') (hc : I c)
    (h : g.tokensFrom c = .error e) :
    ∃ d d', I d ∧ d.hasNext ∧ Lexer.nextToken g d = .error e d' := by
  fun_induction tokensFrom g c with
  | case1 c hnext t c' ht ih =>
    cases hrest : g.tokensFrom c' with
    | error e' =>
      rw [hrest] at h
      obtain rfl := Except.error.inj h
      exact ih (hstep c t c' hc hnext ht) hrest
    | ok rest =>
      rw [hrest] at h
      cases h
  | case2 c hnext e' d' he =>
    obtain rfl := Except.error.inj h
    exact ⟨c, d', hc, hnext, he⟩
  | case3 => cases h

/-- What every token that can be read satisfies, all tokens of a rule satisfy. -/
theorem forall_mem_of_tokensFrom {P : Token → Prop}
    (hstep : ∀ c t c', Lexer.nextToken g c = .ok t c' → P t) {ts : List Token}
    (h : g.tokensFrom c = .ok ts) : ∀ t ∈ ts, P t :=
  forall_mem_of_invariant (I := fun _ => True) (fun c t c' _ _ ht => ⟨hstep c t c' ht, trivial⟩)
    trivial h

end Grammar

end VersionRules
