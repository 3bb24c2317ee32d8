import VersionRules.Proofs.Except
import VersionRules.Proofs.Token.Places
import VersionRules.Proofs.Token.Translation

/-!
# Rules with white space between them

If white space follows a rule that is accepted, then its tokens are read as before, whatever comes
behind the white space: a reader that has come to its end at the end of the rule has nothing left to
ask for, and words end at white space. So two rules with white space between them are read one after
the other.

## Main definitions

* `Cursor.followedBy` — a cursor in a text that goes on

## Main results

* `Lexer.nextToken_followedBy` — a token is read as before if white space follows
* `Grammar.tokensFrom_followedBy` — and so are all tokens of a rule
* `Grammar.tokensFrom_skip` — white space before a rule is passed over
* `Grammar.tokens_append` — the tokens of two rules with white space between them
-/

namespace VersionRules

variable {g : Grammar} {c c' : Cursor} {n start count : Nat} {tail space rest : List Char}
  {quote : Char} {q : Qualifier} {words : List String} {word a w b : String} {kind : TokenKind}
  {t : Token} {ts : List Token}

/-- A cursor in a text behind which `tail` follows. -/
def Cursor.followedBy (c : Cursor) (tail : List Char) : Cursor :=
  ⟨c.pos, c.rest ++ tail⟩

namespace Lexer

/-! ### Passing characters of a text that goes on -/

/-- A run of characters ends where it ended, also at the end of the text if what follows does not go
on with it. -/
theorem readWhile_followedBy {p : Char → Bool} {run : List Char}
    (h : readWhile g p c = .ok run c') (hend : c'.rest = [] → ∀ x ∈ tail.head?, p x = false) :
    readWhile g p (c.followedBy tail) = .ok run (c'.followedBy tail) := by
  obtain ⟨hpassed, hrun, hhead⟩ := readWhile_eq_ok h
  have hstop : ∀ x ∈ (c'.rest ++ tail).head?, p x = false := by
    cases hrest : c'.rest with
    | nil => exact hend hrest
    | cons x rest => rwa [hrest] at hhead
  rw [Cursor.followedBy, hpassed.rest_eq, List.append_assoc,
    readWhile_append (fun x hx => (hrun x hx).1) (fun x hx => (hrun x hx).2) hstop,
    ← hpassed.pos_eq]
  rfl

theorem advance_followedBy {u : Unit} (h : advance g c = .ok u c') (hc : c.rest ≠ []) :
    advance g (c.followedBy tail) = .ok u (c'.followedBy tail) := by
  obtain ⟨pos, rest⟩ := c
  obtain ⟨x, rest, rfl⟩ := List.exists_cons_of_ne_nil hc
  by_cases hx : g.forbids x
  · simp [advance, hx] at h
  · simp only [advance, hx] at h
    obtain ⟨-, rfl⟩ := EStateM.Result.ok.inj h
    exact advance_cons (by simpa using hx)

theorem peek_followedBy (hc : c.rest ≠ []) :
    peek (c.followedBy tail) = .ok c.rest.head? (c.followedBy tail) := by
  obtain ⟨pos, rest⟩ := c
  obtain ⟨x, rest, rfl⟩ := List.exists_cons_of_ne_nil hc
  rfl

theorem skipSpace_followedBy {u : Unit} (h : skipSpace g c = .ok u c') (hc' : c'.rest ≠ []) :
    skipSpace g (c.followedBy tail) = .ok u (c'.followedBy tail) := by
  obtain ⟨run, d, hrun, hd⟩ := bind_eq_ok.1 h
  obtain ⟨-, rfl⟩ := pure_eq_ok.1 hd
  exact bind_of_ok (readWhile_followedBy hrun fun hnil => absurd hnil hc')

/-- A word ends at the end of the text or at white space. -/
theorem readWord_followedBy {run : List Char} (htail : ∀ x ∈ tail.head?, Text.isSpace x)
    (h : readWord g c = .ok run c') :
    readWord g (c.followedBy tail) = .ok run (c'.followedBy tail) :=
  readWhile_followedBy h fun _ x hx => by simp [Grammar.isWordChar, htail x hx]

/-! ### Values and tokens of a text that goes on -/

theorem rest_ne_nil_of_lt (h : n < c.rest.length) : c.rest ≠ [] :=
  List.ne_nil_of_length_pos (Nat.zero_lt_of_lt h)

/-- A quoted value has its closing quote in the text. -/
theorem readQuoted_followedBy {text : List Char} (h : readQuoted g quote start c = .ok text c') :
    readQuoted g quote start (c.followedBy tail) = .ok text (c'.followedBy tail) := by
  have hc := rest_ne_nil_of_lt (length_of_readQuoted h)
  obtain ⟨_, c₁, h₁, h⟩ := bind_eq_ok.1 h
  obtain ⟨run, c₂, h₂, h⟩ := bind_eq_ok.1 h
  obtain ⟨x, c₃, h₃, h⟩ := bind_eq_ok.1 h
  obtain ⟨rfl, rfl⟩ := peek_eq_ok.1 h₃
  cases hrest : c₂.rest with
  | nil =>
    rw [hrest] at h
    exact absurd h failFrom_ne_ok
  | cons x rest =>
    have hc₂ : c₂.rest ≠ [] := hrest ▸ List.cons_ne_nil x rest
    rw [hrest] at h
    obtain ⟨_, c₄, h₄, h⟩ := bind_eq_ok.1 h
    obtain ⟨rfl, rfl⟩ := pure_eq_ok.1 h
    rw [readQuoted, bind_of_ok (advance_followedBy h₁ hc),
      bind_of_ok (readWhile_followedBy h₂ fun hnil => absurd hnil hc₂),
      bind_of_ok (peek_followedBy hc₂), hrest]
    exact bind_of_ok (advance_followedBy h₄ hc₂)

/-- The last word of an unquoted value ends at the end of the text or at white space. -/
theorem readWords_followedBy (htail : ∀ x ∈ tail.head?, Text.isSpace x)
    (h : readWords g q start count c = .ok words c') :
    readWords g q start count (c.followedBy tail) = .ok words (c'.followedBy tail) := by
  induction count generalizing c words with
  | zero =>
    obtain ⟨rfl, rfl⟩ := pure_eq_ok.1 h
    rfl
  | succ count ih =>
    obtain ⟨_, c₁, h₁, h⟩ := bind_eq_ok.1 h
    obtain ⟨word, c₂, h₂, h⟩ := bind_eq_ok.1 h
    cases word with
    | nil => exact absurd h failFrom_ne_ok
    | cons x xs =>
      obtain ⟨rest, c₃, h₃, h⟩ := bind_eq_ok.1 h
      obtain ⟨rfl, rfl⟩ := pure_eq_ok.1 h
      -- White space is passed only to come to a word.
      have hc₁ : c₁.rest ≠ [] := by
        have := length_of_readWhile h₂
        rw [List.length_cons] at this
        exact rest_ne_nil_of_lt (n := 0) (by omega)
      rw [readWords, bind_of_ok (skipSpace_followedBy h₁ hc₁),
        bind_of_ok (readWord_followedBy htail h₂)]
      exact bind_of_ok (ih h₃)

theorem readValue_followedBy (htail : ∀ x ∈ tail.head?, Text.isSpace x)
    (h : readValue g q start c = .ok words c') :
    readValue g q start (c.followedBy tail) = .ok words (c'.followedBy tail) := by
  obtain ⟨_, c₁, h₁, h⟩ := bind_eq_ok.1 h
  obtain ⟨x, c₂, h₂, h⟩ := bind_eq_ok.1 h
  obtain ⟨rfl, rfl⟩ := peek_eq_ok.1 h₂
  by_cases hcolon : c₁.rest.head? = some ':'
  · rw [if_pos hcolon] at h
    obtain ⟨_, c₃, h₃, h⟩ := bind_eq_ok.1 h
    obtain ⟨_, c₄, h₄, h⟩ := bind_eq_ok.1 h
    obtain ⟨y, c₅, h₅, h⟩ := bind_eq_ok.1 h
    obtain ⟨rfl, rfl⟩ := peek_eq_ok.1 h₅
    have hc₁ : c₁.rest ≠ [] := by
      intro hnil
      rw [hnil] at hcolon
      cases hcolon
    have hc₄ : c₄.rest ≠ [] := by
      -- No value is without words, so one has to stand behind the white space.
      intro hnil
      rw [hnil] at h
      have := length_of_readWords h
      have := q.arity_pos
      rw [hnil, List.length_nil] at *
      omega
    rw [readValue, bind_of_ok (skipSpace_followedBy h₁ hc₁), bind_of_ok (peek_followedBy hc₁),
      if_pos hcolon, bind_of_ok (advance_followedBy h₃ hc₁),
      bind_of_ok (skipSpace_followedBy h₄ hc₄), bind_of_ok (peek_followedBy hc₄)]
    cases hquote : c₄.rest.head?.filter Grammar.isQuote with
    | none =>
      rw [hquote] at h
      exact readWords_followedBy htail h
    | some quote =>
      rw [hquote] at h
      obtain ⟨text, c₆, h₆, h⟩ := bind_eq_ok.1 h
      refine (bind_of_ok (readQuoted_followedBy h₆)).trans ?_
      by_cases hcount : (q.splitValue text).length = q.arity
      · rw [if_pos hcount] at h ⊢
        obtain ⟨rfl, rfl⟩ := pure_eq_ok.1 h
        rfl
      · rw [if_neg hcount] at h
        exact absurd h failFrom_ne_ok
  · rw [if_neg hcolon] at h
    exact absurd h failFrom_ne_ok

theorem readWordToken_followedBy (htail : ∀ x ∈ tail.head?, Text.isSpace x)
    (h : readWordToken g word start c = .ok kind c') :
    readWordToken g word start (c.followedBy tail) = .ok kind (c'.followedBy tail) := by
  unfold readWordToken at h ⊢
  cases hword : g.wordToken? word with
  | some kind =>
    rw [hword] at h
    obtain ⟨rfl, rfl⟩ := pure_eq_ok.1 h
    rfl
  | none =>
    rw [hword] at h
    cases hq : g.qualifier? word with
    | some q =>
      rw [hq] at h
      obtain ⟨words, d, hd, h⟩ := bind_eq_ok.1 h
      obtain ⟨rfl, rfl⟩ := pure_eq_ok.1 h
      exact bind_of_ok (readValue_followedBy htail hd)
    | none =>
      rw [hq] at h
      exact absurd h failFrom_ne_ok

theorem readCharToken_followedBy {x : Char} (hc : c.rest ≠ [])
    (h : readCharToken g x start c = .ok kind c') :
    readCharToken g x start (c.followedBy tail) = .ok kind (c'.followedBy tail) := by
  unfold readCharToken at h ⊢
  cases hkind : g.charToken? x with
  | some kind =>
    rw [hkind] at h
    obtain ⟨_, d, hd, h⟩ := bind_eq_ok.1 h
    obtain ⟨rfl, rfl⟩ := pure_eq_ok.1 h
    exact bind_of_ok (advance_followedBy hd hc)
  | none =>
    rw [hkind] at h
    obtain ⟨_, d, -, h⟩ := bind_eq_ok.1 h
    exact absurd h failFrom_ne_ok

theorem head?_followedBy {x : Char} (hx : x ∈ c.rest.head?) :
    x ∈ (c.followedBy tail).rest.head? := by
  rw [Cursor.followedBy, List.head?_append]
  exact Option.or_eq_some_iff.2 (.inl hx)

theorem readToken_followedBy (htail : ∀ x ∈ tail.head?, Text.isSpace x)
    (h : readToken g c = .ok t c') :
    readToken g (c.followedBy tail) = .ok t (c'.followedBy tail) := by
  have hne {d : Cursor} {x : Char} (hx : x ∈ d.rest.head?) : d.rest ≠ [] :=
    List.ne_nil_of_mem (List.mem_of_mem_head? hx)
  refine readToken_eq_ok_iff.2 ?_
  cases readToken_eq_ok_iff.1 h with
  | char hspace hhead hword hkind =>
    exact .char (skipSpace_followedBy hspace (hne hhead)) (head?_followedBy hhead)
      (readWord_followedBy htail hword) (readCharToken_followedBy (hne hhead) hkind)
  | word hspace hhead hword hword_ne hkind =>
    exact .word (skipSpace_followedBy hspace (hne hhead)) (head?_followedBy hhead)
      (readWord_followedBy htail hword) hword_ne (readWordToken_followedBy htail hkind)

/-- A token is read as before if white space follows the text. -/
theorem nextToken_followedBy (htail : ∀ x ∈ tail.head?, Text.isSpace x)
    (h : nextToken g c = .ok t c') :
    nextToken g (c.followedBy tail) = .ok t (c'.followedBy tail) := by
  obtain ⟨hread, hcheck⟩ := readToken_of_nextToken h
  rw [nextToken_of_readToken (readToken_followedBy htail hread), hcheck]

/-! ### White space before a token -/

theorem nextToken_congr {d : Cursor} (h : readToken g c = readToken g d) :
    nextToken g c = nextToken g d := by
  show EStateM.bind _ _ c = EStateM.bind _ _ d
  rw [EStateM.bind, h]
  rfl

/-- White space before a token is passed over, if it is not forbidden. -/
theorem nextToken_skip (hallowed : ∀ x, Text.isSpace x → g.forbids x = false)
    (hspace : ∀ x ∈ space, Text.isSpace x) (hrest : rest.any fun x => !Text.isSpace x) :
    nextToken g ⟨n, space ++ rest⟩ = nextToken g ⟨n + space.length, rest⟩ := by
  obtain ⟨x, hfind⟩ := Option.isSome_iff_exists.1 (List.find?_isSome.2 (List.any_eq_true.1 hrest))
  obtain ⟨hx, space', rest', rfl, hspace'⟩ := List.find?_eq_some_iff_append.1 hfind
  simp only [Bool.not_not, Bool.not_eq_true'] at hx hspace'
  have hboth := List.forall_mem_append.2 ⟨hspace, hspace'⟩
  refine nextToken_congr ?_
  -- Both ways, the token is read behind all of the white space.
  rw [readToken_skip hspace' (fun y hy => hallowed y (hspace' y hy)) hx, ← List.append_assoc,
    readToken_skip hboth (fun y hy => hallowed y (hboth y hy)) hx, List.length_append,
    Nat.add_assoc]

end Lexer

/-! ### Two rules one behind the other -/

namespace Grammar

/-- What is read depends on the next token and on what is behind it. -/
theorem tokensFrom_congr {d : Cursor} (hnext : c.hasNext = d.hasNext)
    (h : c.hasNext → Lexer.nextToken g c = Lexer.nextToken g d) :
    g.tokensFrom c = g.tokensFrom d := by
  cases hc : c.hasNext with
  | false => rw [tokensFrom_of_not_hasNext hc, tokensFrom_of_not_hasNext (hnext.symm.trans hc)]
  | true =>
    have hd := hnext.symm.trans hc
    cases hread : Lexer.nextToken g d with
    | ok t d' =>
      rw [tokensFrom_of_nextToken hc ((h hc).trans hread), tokensFrom_of_nextToken hd hread]
    | error e d' => rw [tokensFrom_of_error hc ((h hc).trans hread), tokensFrom_of_error hd hread]

/-- White space before a rule is passed over, if it is not forbidden. -/
theorem tokensFrom_skip (hallowed : ∀ x, Text.isSpace x → g.forbids x = false)
    (hspace : ∀ x ∈ space, Text.isSpace x) (n : Nat) (rest : List Char) :
    g.tokensFrom ⟨n, space ++ rest⟩ = g.tokensFrom ⟨n + space.length, rest⟩ := by
  have hblank : space.any (fun x => !Text.isSpace x) = false := by simpa using hspace
  have hnext : (⟨n, space ++ rest⟩ : Cursor).hasNext = rest.any fun x => !Text.isSpace x := by
    rw [Cursor.hasNext, List.any_append, hblank, Bool.false_or]
  exact tokensFrom_congr hnext fun h => Lexer.nextToken_skip hallowed hspace (hnext.symm.trans h)

/-- If white space follows a rule that is accepted, the tokens behind it follow those of the
rule. -/
theorem tokensFrom_followedBy (hallowed : ∀ x, Text.isSpace x → g.forbids x = false)
    (htail : ∀ x ∈ tail.head?, Text.isSpace x) (h : g.tokensFrom c = .ok ts) :
    g.tokensFrom (c.followedBy tail) = (g.tokensFrom ⟨c.stop, tail⟩).map (ts ++ ·) := by
  fun_induction tokensFrom g c generalizing ts with
  | case1 c hnext t c' ht ih =>
    cases hrest : g.tokensFrom c' with
    | error e =>
      rw [hrest] at h
      cases h
    | ok rest =>
      rw [hrest] at h
      obtain rfl := Except.ok.inj h
      have hnext' : (c.followedBy tail).hasNext := by
        rw [Cursor.hasNext, Cursor.followedBy, List.any_append, Bool.or_eq_true]
        exact .inl hnext
      obtain ⟨space, d, run, hspace, -, hrun, -⟩ :=
        Lexer.readToken_alone hnext (Lexer.readToken_of_nextToken ht).1
      -- The text ends in the same place for the reader that goes on behind the token.
      have hstop : c'.stop = c.stop := hrun.stop_eq.trans hspace.stop_eq
      rw [tokensFrom_of_nextToken hnext' (Lexer.nextToken_followedBy htail ht), ih hrest, hstop]
      cases g.tokensFrom ⟨c.stop, tail⟩ <;> rfl
  | case2 => cases h
  | case3 c hnext =>
    obtain rfl := Except.ok.inj h
    -- What is left of the rule is white space, and is passed together with what begins the rest.
    have hblank : ∀ x ∈ c.rest, Text.isSpace x := by simpa [Cursor.hasNext] using hnext
    rw [Cursor.followedBy, tokensFrom_skip hallowed hblank, Cursor.stop]
    cases g.tokensFrom ⟨c.pos + c.rest.length, tail⟩ <;> rfl

/-- **Rules with white space between them.** If a rule is accepted, then the rule that continues it
behind white space has its tokens and those of the rest, further on by the length of what is before
the rest; and if the rest is rejected, then the whole is rejected for the same error, as much
further on. -/
theorem tokens_append (hallowed : ∀ x, Text.isSpace x → g.forbids x = false) (hw : w ≠ "")
    (hspace : ∀ x ∈ w.toList, Text.isSpace x) (ha : g.tokens a = .ok ts) :
    g.tokens (a ++ w ++ b) =
      match g.tokens b with
      | .ok us => .ok (ts ++ us.map (Token.shift (a.length + w.length)))
      | .error e => .error (e.shift (a.length + w.length)) := by
  have htail : ∀ x ∈ (w.toList ++ b.toList).head?, Text.isSpace x := by
    obtain ⟨y, ys, hys⟩ := List.exists_cons_of_ne_nil fun h => hw (String.toList_eq_nil_iff.1 h)
    intro x hx
    rw [hys] at hx
    exact hspace x (hys ▸ List.mem_of_mem_head? hx)
  have hwhole : Cursor.ofRule (a ++ w ++ b) =
      (Cursor.ofRule a).followedBy (w.toList ++ b.toList) := by
    rw [Cursor.ofRule, String.toList_append, String.toList_append, List.append_assoc]
    rfl
  have hrest : (⟨(Cursor.ofRule a).stop + w.toList.length, b.toList⟩ : Cursor) =
      (Cursor.ofRule b).shift (a.length + w.length) := by
    rw [(Cursor.in_ofRule a).stop_eq, String.length_toList, String.length_toList, Cursor.shift,
      Cursor.ofRule, Nat.zero_add]
  rw [tokens, hwhole, tokensFrom_followedBy hallowed htail ha, tokensFrom_skip hallowed hspace,
    hrest, tokensFrom_shift, tokens]
  cases g.tokensFrom (.ofRule b) <;> rfl

/-- Behind the same rule and white space, a rule that is accepted and one that is rejected. -/
theorem tokens_append_term :
    full.tokens "(build:1" = .ok [⟨0, 1, .lparen⟩, ⟨1, 8, .qualifier .build ["1"]⟩] ∧
      full.tokens ("(build:1" ++ "\t " ++ ")or") =
        .ok [⟨0, 1, .lparen⟩, ⟨1, 8, .qualifier .build ["1"]⟩, ⟨10, 11, .rparen⟩,
          ⟨11, 13, .logic .or⟩] ∧
      full.tokens ("(build:1" ++ "\t " ++ "2 or") = .error ⟨.unknownWord "2", .range 10 11⟩ := by
  have ha : full.tokens "(build:1" =
      .ok [⟨0, 1, .lparen⟩, ⟨1, 8, .qualifier .build ["1"]⟩] := by
    decide +kernel
  have hb : full.tokens ")or" = .ok [⟨0, 1, .rparen⟩, ⟨1, 3, .logic .or⟩] := by decide +kernel
  have hb' : full.tokens "2 or" = .error ⟨.unknownWord "2", .range 0 1⟩ := by decide +kernel
  have hspace : ∀ x ∈ "\t ".toList, Text.isSpace x := List.all_eq_true.1 rfl
  have happend (b : String) := tokens_append (b := b) (fun _ _ => rfl) (by decide) hspace ha
  exact ⟨ha, (happend ")or").trans (by rw [hb]; rfl), (happend "2 or").trans (by rw [hb']; rfl)⟩

end Grammar

end VersionRules
