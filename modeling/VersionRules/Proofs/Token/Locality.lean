import VersionRules.Proofs.Token.Reading

/-!
# What a reader depends on

A reader of a part of a token depends on the characters it passes and on nothing else: if they stand
alone, or elsewhere in another rule, they are read as the same. What comes behind them matters only
in that it does not go on with them, and they end where the text ends all the same. If a reader
fails, it fails at a character of the text, or about characters of the text that were passed.

## Main definitions

* `Cursor.Passed` — the characters between two cursors
* `RuleError.Within` — errors about characters of a text
* `Lexer.IsLocal` — readers that depend on what they pass

## Main results

* `Lexer.IsLocal.bind`, `Lexer.IsLocal.peek_bind` — readers one after the other
* `Lexer.isLocal_readValue`, `Lexer.isLocal_readWordToken` — the readers of the rule language
* `Lexer.readToken_behind_space` — a token is read from behind white space on
* `Lexer.readToken_alone` — a token is read from its own characters alone
* `Lexer.within_of_readToken` — where reading a token fails
-/

namespace VersionRules

variable {g : Grammar} {α β : Type} {c c' d : Cursor} {n start : Nat} {x : Char}
  {run run' rest word : List Char} {t : Token} {e : RuleError}

/-! ### Characters between cursors -/

namespace Cursor

/-- The end of the text that a cursor is in. -/
def stop (c : Cursor) : Nat :=
  c.pos + c.rest.length

/-- The characters between two cursors. -/
structure Passed (c : Cursor) (run : List Char) (c' : Cursor) : Prop where
  rest_eq : c.rest = run ++ c'.rest
  pos_eq : c'.pos = c.pos + run.length

theorem Passed.refl (c : Cursor) : c.Passed [] c :=
  ⟨rfl, rfl⟩

theorem Passed.eq (h : c.Passed [] c') : c' = c := by
  obtain ⟨pos, rest⟩ := c'
  obtain ⟨hrest, rfl⟩ := h
  obtain rfl : c.rest = rest := hrest
  rfl

theorem Passed.trans (h : c.Passed run d) (h' : d.Passed run' c') : c.Passed (run ++ run') c' := by
  refine ⟨?_, ?_⟩
  · rw [h.rest_eq, h'.rest_eq, List.append_assoc]
  · rw [h'.pos_eq, h.pos_eq, List.length_append, Nat.add_assoc]

theorem Passed.length_eq (h : c.Passed run c') : c.rest.length = run.length + c'.rest.length := by
  rw [h.rest_eq, List.length_append]

/-- Reading does not change where the text ends. -/
theorem Passed.stop_eq (h : c.Passed run c') : c'.stop = c.stop := by
  have := h.length_eq
  have := h.pos_eq
  simp only [stop]
  omega

/-- What was passed from the beginning of a rule, and what comes next. -/
theorem Passed.take_eq {rule : String} (h : (ofRule rule).Passed run c') :
    rule.toList.take c'.pos = run := by
  have hrule : rule.toList = run ++ c'.rest := h.rest_eq
  rw [hrule, h.pos_eq, ofRule, Nat.zero_add, List.take_left]

theorem Passed.getElem?_eq {rule : String} (h : (ofRule rule).Passed run c') :
    rule.toList[c'.pos]? = c'.rest.head? := by
  have hrule : rule.toList = run ++ c'.rest := h.rest_eq
  rw [hrule, h.pos_eq, ofRule, Nat.zero_add, List.getElem?_append_right (Nat.le_refl _),
    Nat.sub_self, List.head?_eq_getElem?]

end Cursor

/-- An error about a character of a text that ends at `stop`, or about a range of its characters
that is not empty. -/
inductive RuleError.Within (stop : Nat) : RuleError → Prop
  | char {pos : Nat} {x : Char} (h : pos < stop) : Within stop ⟨.forbiddenCharacter x, .char pos⟩
  | range {start stop' : Nat} {cause : RuleError.Cause} (hstart : start < stop')
      (hstop : stop' ≤ stop) : Within stop ⟨cause, .range start stop'⟩

namespace Lexer

/-- On the characters `run` a reader gives `a`, wherever they stand and wherever the token began, if
no more comes behind them than the beginning of `rest`. -/
def Gives (m : Nat → Lexer α) (a : α) (run rest : List Char) : Prop :=
  ∀ start n rest', rest' <+: rest → m start ⟨n, run ++ rest'⟩ = .ok a ⟨n + run.length, rest'⟩

/-- A reader of a part of a token, given where the token began: what it gives depends on the
characters it passes, and what it fails about lies in the text. -/
structure IsLocal (m : Nat → Lexer α) : Prop where
  exists_run {start : Nat} {c : Cursor} {a : α} {c' : Cursor} (h : m start c = .ok a c') :
    ∃ run, c.Passed run c' ∧ Gives m a run c'.rest
  within {start : Nat} {c : Cursor} {e : RuleError} {c' : Cursor} (h : m start c = .error e c')
    (hstart : start < c.pos) : e.Within c.stop

/-! ### Readers one after the other -/

theorem bind_eq_error {m : Lexer α} {f : α → Lexer β} :
    (m >>= f) c = .error e c' ↔
      m c = .error e c' ∨ ∃ a d, m c = .ok a d ∧ f a d = .error e c' := by
  show EStateM.bind m f c = _ ↔ _
  unfold EStateM.bind
  cases m c with
  | ok a d =>
    constructor
    · exact fun h => .inr ⟨a, d, rfl, h⟩
    · rintro (h | ⟨_, _, ⟨⟩, h⟩)
      · cases h
      · exact h
  | error e' d => simp

theorem IsLocal.length_le {m : Nat → Lexer α} (hm : IsLocal m) {a : α} (h : m start c = .ok a c') :
    c'.rest.length ≤ c.rest.length := by
  obtain ⟨run, hrun, -⟩ := hm.exists_run h
  have := hrun.length_eq
  omega

theorem isLocal_pure (a : α) : IsLocal fun _ => (pure a : Lexer α) where
  exists_run h := by
    obtain ⟨rfl, rfl⟩ := pure_eq_ok.1 h
    exact ⟨[], .refl _, fun _ _ _ _ => rfl⟩
  within h := by cases h

theorem isLocal_failFrom (cause : RuleError.Cause) :
    IsLocal fun start => (failFrom start cause : Lexer α) where
  exists_run h := absurd h failFrom_ne_ok
  within h hstart := by
    obtain ⟨rfl, -⟩ := EStateM.Result.error.inj h
    exact .range hstart (Nat.le_add_right _ _)

theorem IsLocal.bind {m : Nat → Lexer α} {f : α → Nat → Lexer β} (hm : IsLocal m)
    (hf : ∀ a, IsLocal (f a)) : IsLocal fun start => m start >>= fun a => f a start where
  exists_run h := by
    obtain ⟨a, d, ha, hb⟩ := bind_eq_ok.1 h
    obtain ⟨run, hrun, hgives⟩ := hm.exists_run ha
    obtain ⟨run', hrun', hgives'⟩ := (hf a).exists_run hb
    refine ⟨run ++ run', hrun.trans hrun', ?_⟩
    intro start n rest hrest
    -- The second reader passes the beginning of what is behind the first one.
    have hahead : run' ++ rest <+: d.rest := by
      rw [hrun'.rest_eq]
      exact (List.prefix_append_right_inj run').2 hrest
    rw [List.append_assoc, List.length_append, ← Nat.add_assoc]
    exact (bind_of_ok (hgives start n _ hahead)).trans (hgives' start _ rest hrest)
  within h hstart := by
    rcases bind_eq_error.1 h with h | ⟨a, d, ha, hb⟩
    · exact hm.within h hstart
    · obtain ⟨run, hrun, -⟩ := hm.exists_run ha
      have := hrun.pos_eq
      rw [← hrun.stop_eq]
      exact (hf a).within hb (by omega)

/-- A reader may look at the next character if it passes this character in the end. -/
theorem IsLocal.peek_bind {f : Option Char → Nat → Lexer α} (hf : ∀ x, IsLocal (f x))
    (hpass : ∀ start c a c', f c.rest.head? start c = .ok a c' →
      c'.rest.length < c.rest.length) :
    IsLocal fun start => peek >>= fun x => f x start where
  exists_run {start c a c'} h := by
    have h : f c.rest.head? start c = .ok a c' := h
    obtain ⟨run, hrun, hgives⟩ := (hf _).exists_run h
    refine ⟨run, hrun, ?_⟩
    intro start' n rest hrest
    have hlength := hrun.length_eq
    have hlt := hpass start c a c' h
    -- Something was passed, so what is seen first does not depend on what comes behind.
    obtain ⟨y, ys, rfl⟩ : ∃ y ys, run = y :: ys :=
      List.exists_cons_of_ne_nil (by rintro rfl; simp at hlength; omega)
    have hhead : c.rest.head? = some y := by
      rw [hrun.rest_eq]
      rfl
    rw [hhead] at hgives
    exact hgives start' n rest hrest
  within h hstart := (hf _).within h hstart

/-! ### Runs of characters -/

/-- A run of characters ends at the first one of another kind, unless a forbidden one cuts it
short. -/
theorem readWhile_cases (g : Grammar) (p : Char → Bool) (c : Cursor) :
    ∃ run rest, c.rest = run ++ rest ∧ (∀ x ∈ run, p x ∧ g.forbids x = false) ∧
      ((∀ x ∈ rest.head?, p x = false) ∧
          readWhile g p c = .ok run ⟨c.pos + run.length, rest⟩ ∨
        ∃ x ∈ rest.head?, g.forbids x ∧ readWhile g p c =
          .error ⟨.forbiddenCharacter x, .char (c.pos + run.length)⟩
            ⟨c.pos + run.length, rest⟩) := by
  have hsplit := List.takeWhile_append_dropWhile (p := fun x => p x && !g.forbids x) (l := c.rest)
  have hstop := List.head?_dropWhile_not (fun x => p x && !g.forbids x) c.rest
  refine ⟨_, _, hsplit.symm, ?_, ?_⟩
  · intro x hx
    simpa using List.all_eq_true.1 List.all_takeWhile x hx
  · simp only [readWhile, Cursor.skip]
    generalize (c.rest.takeWhile fun x => p x && !g.forbids x) = run at *
    generalize (c.rest.dropWhile fun x => p x && !g.forbids x) = rest at *
    rw [← hsplit, List.drop_left]
    cases rest with
    | nil => exact .inl ⟨by simp, rfl⟩
    | cons x rest =>
      by_cases hx : p x
      · have hforbids : g.forbids x := by simpa [hx] using hstop
        exact .inr ⟨x, rfl, hforbids, if_pos hx⟩
      · exact .inl ⟨by simpa using hx, if_neg hx⟩

theorem readWhile_eq_ok {p : Char → Bool} (h : readWhile g p c = .ok run c') :
    c.Passed run c' ∧ (∀ x ∈ run, p x ∧ g.forbids x = false) ∧
      ∀ x ∈ c'.rest.head?, p x = false := by
  obtain ⟨run, rest, hc, hrun, ⟨hhead, hok⟩ | ⟨x, -, -, herror⟩⟩ := readWhile_cases g p c
  · obtain ⟨rfl, rfl⟩ := EStateM.Result.ok.inj (hok.symm.trans h)
    exact ⟨⟨hc, rfl⟩, hrun, hhead⟩
  · cases herror.symm.trans h

theorem within_of_readWhile {p : Char → Bool} (h : readWhile g p c = .error e c') :
    e.Within c.stop := by
  obtain ⟨run, rest, hc, -, ⟨-, hok⟩ | ⟨x, hx, -, herror⟩⟩ := readWhile_cases g p c
  · cases hok.symm.trans h
  · obtain ⟨rfl, -⟩ := EStateM.Result.error.inj (herror.symm.trans h)
    have hpos : 0 < rest.length := List.length_pos_of_mem (List.mem_of_mem_head? hx)
    refine .char ?_
    rw [Cursor.stop, hc, List.length_append]
    omega

/-- What holds of the next character holds of it when less is behind it. -/
theorem forall_head?_of_isPrefix {P : Char → Prop} (h : run <+: rest)
    (hrest : ∀ x ∈ rest.head?, P x) : ∀ x ∈ run.head?, P x := by
  obtain ⟨tail, rfl⟩ := h
  intro x hx
  refine hrest x ?_
  rw [List.head?_append]
  exact Option.or_eq_some_iff.2 (.inl hx)

theorem isLocal_readWhile (p : Char → Bool) : IsLocal fun _ => readWhile g p where
  exists_run {start c run c'} h := by
    obtain ⟨hpassed, hrun, hhead⟩ := readWhile_eq_ok h
    refine ⟨run, hpassed, ?_⟩
    intro start n rest hrest
    exact readWhile_append (fun x hx => (hrun x hx).1) (fun x hx => (hrun x hx).2)
      (forall_head?_of_isPrefix hrest hhead)
  within h _ := within_of_readWhile h

theorem isLocal_advance : IsLocal fun _ => advance g where
  exists_run {start c u c'} h := by
    unfold advance at h
    split at h
    · next x rest hc =>
      split at h
      · cases h
      · next hx =>
        obtain ⟨-, rfl⟩ := EStateM.Result.ok.inj h
        refine ⟨[x], ⟨hc, rfl⟩, ?_⟩
        intro start n rest' _
        exact advance_cons (by simpa using hx)
    · next hc =>
      -- At the end of the text nothing is passed, and nothing is behind it.
      obtain ⟨-, rfl⟩ := EStateM.Result.ok.inj h
      refine ⟨[], .refl c, ?_⟩
      intro start n rest hrest
      rw [hc, List.prefix_nil] at hrest
      rw [hrest]
      rfl
  within {start c e c'} h _ := by
    unfold advance at h
    split at h
    · next x rest hc =>
      split at h
      · obtain ⟨rfl, -⟩ := EStateM.Result.error.inj h
        refine .char ?_
        simp [Cursor.stop, hc]
      · cases h
    · cases h

theorem isLocal_skipSpace : IsLocal fun _ => skipSpace g :=
  (isLocal_readWhile _).bind fun _ => isLocal_pure _

/-! ### Values -/

theorem isLocal_readQuoted (quote : Char) : IsLocal (readQuoted g quote) := by
  unfold readQuoted
  refine isLocal_advance.bind fun _ => (isLocal_readWhile _).bind fun text => ?_
  refine .peek_bind ?_ ?_
  · rintro (- | x)
    · exact isLocal_failFrom _
    · exact isLocal_advance.bind fun _ => isLocal_pure text
  · intro start c text' c' h
    cases hc : c.rest with
    | nil =>
      rw [hc] at h
      exact absurd h failFrom_ne_ok
    | cons x rest =>
      -- What is seen is the closing quote, which is passed.
      rw [hc] at h
      obtain ⟨_, d, hd, h⟩ := bind_eq_ok.1 h
      obtain ⟨-, rfl⟩ := pure_eq_ok.1 h
      have := length_of_advance hd
      rw [hc, List.length_cons] at this
      rw [List.length_cons]
      omega

theorem isLocal_readWords (q : Qualifier) (count : Nat) :
    IsLocal fun start => readWords g q start count := by
  induction count with
  | zero => exact isLocal_pure []
  | succ count ih =>
    refine isLocal_skipSpace.bind fun _ => (isLocal_readWhile _).bind ?_
    rintro (- | ⟨x, xs⟩)
    · exact isLocal_failFrom _
    · exact ih.bind fun _ => isLocal_pure _

/-- A reader may ask for a certain character, which it passes. -/
theorem IsLocal.expect {k : Unit → Nat → Lexer α} {cause : RuleError.Cause}
    (hk : ∀ u, IsLocal (k u)) :
    IsLocal fun start => peek >>= fun y =>
      if y = some x then advance g >>= fun u => k u start else failFrom start cause := by
  refine .peek_bind (f := fun y start =>
    if y = some x then advance g >>= fun u => k u start else failFrom start cause) ?_ ?_
  · intro y
    by_cases hy : y = some x
    · simp only [if_pos hy]
      exact isLocal_advance.bind hk
    · simp only [if_neg hy]
      exact isLocal_failFrom cause
  · intro start c a c' h
    by_cases hx : c.rest.head? = some x
    · rw [if_pos hx] at h
      obtain ⟨u, d, hd, h⟩ := bind_eq_ok.1 h
      have := length_of_advance hd
      have := (hk u).length_le h
      have : 0 < c.rest.length := List.length_pos_of_mem (List.mem_of_mem_head? hx)
      omega
    · rw [if_neg hx] at h
      exact absurd h failFrom_ne_ok

theorem isLocal_readValue (q : Qualifier) : IsLocal (readValue g q) := by
  unfold readValue
  refine isLocal_skipSpace.bind fun _ => .expect fun _ => isLocal_skipSpace.bind fun _ => ?_
  refine .peek_bind ?_ ?_
  · intro y
    cases y.filter Grammar.isQuote with
    | none => exact isLocal_readWords q q.arity
    | some quote =>
      refine (isLocal_readQuoted quote).bind fun text => ?_
      by_cases hcount : (q.splitValue text).length = q.arity
      · simp only [if_pos hcount]
        exact isLocal_pure _
      · simp only [if_neg hcount]
        exact isLocal_failFrom _
  · intro start c words c' h
    cases hquote : c.rest.head?.filter Grammar.isQuote with
    | none =>
      -- No value is without words, so the first character of the first one is passed.
      rw [hquote] at h
      have := length_of_readWords h
      have := q.arity_pos
      omega
    | some quote =>
      rw [hquote] at h
      obtain ⟨text, d, hd, h⟩ := bind_eq_ok.1 h
      have := length_of_readQuoted hd
      by_cases hcount : (q.splitValue text).length = q.arity
      · rw [if_pos hcount] at h
        obtain ⟨-, rfl⟩ := pure_eq_ok.1 h
        assumption
      · rw [if_neg hcount] at h
        exact absurd h failFrom_ne_ok

/-! ### Tokens -/

theorem isLocal_readWordToken (word : String) : IsLocal (readWordToken g word) := by
  unfold readWordToken
  cases g.wordToken? word with
  | some kind => exact isLocal_pure kind
  | none =>
    cases g.qualifier? word with
    | some q => exact (isLocal_readValue q).bind fun _ => isLocal_pure _
    | none => exact isLocal_failFrom _

/-- White space before a token is passed over. -/
theorem readToken_skip {space : List Char} (hspace : ∀ y ∈ space, Text.isSpace y)
    (hallowed : ∀ y ∈ space, g.forbids y = false) (hx : Text.isSpace x = false) :
    readToken g ⟨n, space ++ x :: rest⟩ = readToken g ⟨n + space.length, x :: rest⟩ := by
  have hskip : skipSpace g ⟨n, space ++ x :: rest⟩ = .ok () ⟨n + space.length, x :: rest⟩ :=
    skipSpace_append hspace hallowed (by simpa using hx)
  rw [readToken, bind_of_ok (position_eq _), bind_of_ok hskip, bind_of_ok (position_eq _),
    bind_of_ok (skipSpace_cons hx)]
  rfl

/-- Where a token is read, more than white space is left. -/
theorem hasNext_of_readToken (h : readToken g c = .ok t c') : c.hasNext := by
  have hbehind {d : Cursor} {x : Char} (hspace : skipSpace g c = .ok () d)
      (hx : x ∈ d.rest.head?) : c.hasNext := by
    obtain ⟨space, c₁, hrun, h⟩ := bind_eq_ok.1 hspace
    obtain ⟨-, rfl⟩ := pure_eq_ok.1 h
    obtain ⟨hpassed, -, hhead⟩ := readWhile_eq_ok hrun
    refine List.any_eq_true.2 ⟨x, ?_, by rw [hhead x hx, Bool.not_false]⟩
    rw [hpassed.rest_eq]
    exact List.mem_append_right space (List.mem_of_mem_head? hx)
  cases readToken_eq_ok_iff.1 h with
  | char hspace hhead => exact hbehind hspace hhead
  | word hspace hhead => exact hbehind hspace hhead

/-- A character that no word begins with is read by itself. -/
theorem readToken_char (hspace : Text.isSpace x = false) (hword : g.isWordChar x = false) :
    readToken g ⟨n, x :: rest⟩ =
      (do
        let kind ← readCharToken g x n
        return ⟨n, ← position, kind⟩ : Lexer Token) ⟨n, x :: rest⟩ := by
  have hrun : readWord g ⟨n, [] ++ x :: rest⟩ = .ok [] ⟨n, x :: rest⟩ :=
    readWhile_append nofun nofun (by simpa using hword)
  exact readToken_of_readWord hspace hrun

theorem readCharToken_cons (g : Grammar) (n start : Nat) (x : Char) (rest : List Char) :
    readCharToken g x start ⟨n, x :: rest⟩ =
      if g.forbids x then .error ⟨.forbiddenCharacter x, .char n⟩ ⟨n, x :: rest⟩
      else
        match g.charToken? x with
        | some kind => .ok kind ⟨n + 1, rest⟩
        | none => .error ⟨.unknownCharacter x, .range start (n + 1)⟩ ⟨n + 1, rest⟩ := by
  unfold readCharToken
  by_cases hx : g.forbids x
  · have hadvance : advance g ⟨n, x :: rest⟩ =
        .error ⟨.forbiddenCharacter x, .char n⟩ ⟨n, x :: rest⟩ := if_pos hx
    rw [if_pos hx]
    cases g.charToken? x <;> exact bind_of_error hadvance
  · rw [if_neg hx]
    have hadvance : advance g ⟨n, x :: rest⟩ = .ok () ⟨n + 1, rest⟩ := if_neg hx
    cases g.charToken? x <;> exact bind_of_ok hadvance

/-- The characters `run` are a token of a kind when they stand alone. -/
structure StandsAlone (g : Grammar) (run : List Char) (kind : TokenKind) : Prop where
  hasNext : (⟨0, run⟩ : Cursor).hasNext
  readToken_eq : readToken g ⟨0, run⟩ = .ok ⟨0, run.length, kind⟩ ⟨run.length, []⟩

/-- What becomes of reading a token at its first character: it fails within the text, or the
characters that are passed are the token when they stand alone. -/
inductive Outcome (g : Grammar) (c : Cursor) : Prop
  | error {e : RuleError} {d : Cursor} (h : readToken g c = .error e d) (hwithin : e.Within c.stop)
  | ok {run : List Char} {kind : TokenKind} {d : Cursor}
      (h : readToken g c = .ok ⟨c.pos, d.pos, kind⟩ d) (hrun : c.Passed run d)
      (halone : StandsAlone g run kind)

/-- A character by itself is a token, or it is none wherever it stands. -/
theorem outcome_char (hspace : Text.isSpace x = false) (hword : g.isWordChar x = false) :
    Outcome g ⟨n, x :: rest⟩ := by
  have hread : readToken g ⟨n, x :: rest⟩ = _ := readToken_char hspace hword
  by_cases hx : g.forbids x
  · have hchar := readCharToken_cons g n n x rest
    rw [if_pos hx] at hchar
    exact .error (hread.trans (bind_of_error hchar)) (.char (by simp [Cursor.stop]))
  · cases hkind : g.charToken? x with
    | none =>
      have hchar := readCharToken_cons g n n x rest
      rw [if_neg hx, hkind] at hchar
      refine .error (hread.trans (bind_of_error hchar)) (.range (Nat.lt_succ_self n) ?_)
      simp only [Cursor.stop, List.length_cons]
      omega
    | some kind =>
      have hchar : ∀ n rest, readCharToken g x n ⟨n, x :: rest⟩ = .ok kind ⟨n + 1, rest⟩ := by
        intro n rest
        rw [readCharToken_cons, if_neg hx, hkind]
      have hrun : Cursor.Passed ⟨n, x :: rest⟩ [x] ⟨n + 1, rest⟩ := ⟨rfl, rfl⟩
      refine .ok (hread.trans (bind_of_ok (hchar n rest))) hrun ⟨?_, ?_⟩
      · simp [Cursor.hasNext, hspace]
      · exact (readToken_char hspace hword).trans (bind_of_ok (hchar 0 []))

/-- A word is read on behind its end, where what comes next is not part of it. -/
theorem outcome_word (hne : word ≠ []) (hword : ∀ x ∈ word, g.isWordChar x ∧ g.forbids x = false)
    (hhead : ∀ x ∈ rest.head?, g.isWordChar x = false) : Outcome g ⟨n, word ++ rest⟩ := by
  have hchars : ∀ x ∈ word, g.isWordChar x := fun x hx => (hword x hx).1
  have hallowed : ∀ x ∈ word, g.forbids x = false := fun x hx => (hword x hx).2
  have hread := readToken_append (n := n) hne hchars hallowed hhead
  have hpassed : Cursor.Passed ⟨n, word ++ rest⟩ word ⟨n + word.length, rest⟩ := ⟨rfl, rfl⟩
  have hlocal := isLocal_readWordToken (g := g) (String.ofList word)
  cases hkind : readWordToken g (String.ofList word) n ⟨n + word.length, rest⟩ with
  | error e d =>
    have hlt : n < n + word.length := Nat.lt_add_of_pos_right (List.length_pos_iff.2 hne)
    have hwithin := hlocal.within hkind hlt
    rw [hpassed.stop_eq] at hwithin
    exact .error (hread.trans (bind_of_error hkind)) hwithin
  | ok kind d =>
    obtain ⟨run, hrun, hgives⟩ := hlocal.exists_run hkind
    refine .ok (hread.trans (bind_of_ok hkind)) (hpassed.trans hrun) ⟨?_, ?_⟩
    · -- The word begins with something other than white space.
      obtain ⟨x, xs, rfl⟩ := List.exists_cons_of_ne_nil hne
      have hx := Grammar.isSpace_eq_false_of_isWordChar (hchars x List.mem_cons_self)
      simp only [Cursor.hasNext, List.cons_append, List.any_cons, hx, Bool.not_false, Bool.true_or]
    · -- The word ends where it ended before, whether or not anything is behind it.
      have hhead' : ∀ x ∈ run.head?, g.isWordChar x = false :=
        forall_head?_of_isPrefix ⟨d.rest, hrun.rest_eq.symm⟩ hhead
      have hkind' := hgives 0 (0 + word.length) [] List.nil_prefix
      rw [List.append_nil] at hkind'
      rw [readToken_append hne hchars hallowed hhead', bind_of_ok hkind', List.length_append,
        Nat.zero_add]
      rfl

/-- What becomes of reading a token at its first character. -/
theorem outcome_cons (g : Grammar) (n : Nat) (rest : List Char) (hx : Text.isSpace x = false) :
    Outcome g ⟨n, x :: rest⟩ := by
  obtain ⟨word, rest', hc, hword, ⟨hhead, -⟩ | ⟨y, hy, -, herror⟩⟩ :=
    readWhile_cases g g.isWordChar ⟨n, x :: rest⟩
  · cases word with
    | nil =>
      obtain rfl : x :: rest = rest' := hc
      exact outcome_char hx (hhead x rfl)
    | cons y ys =>
      have hc : x :: rest = y :: ys ++ rest' := hc
      rw [hc]
      exact outcome_word (List.cons_ne_nil y ys) hword hhead
  · -- A forbidden character cuts the first word short.
    exact .error (readToken_of_readWord_error hx herror) (within_of_readWhile herror)

/-- Where more than white space is left, reading a token begins behind the white space, unless this
is forbidden. -/
theorem readToken_behind_space (g : Grammar) (hc : c.hasNext) :
    (∃ e d x, readToken g c = .error e d ∧ e.Within c.stop ∧ e.cause = .forbiddenCharacter x) ∨
      ∃ space n x rest, c.Passed space ⟨n, x :: rest⟩ ∧ (∀ y ∈ space, Text.isSpace y) ∧
        Text.isSpace x = false ∧ readToken g c = readToken g ⟨n, x :: rest⟩ := by
  obtain ⟨space, rest, hrest, hspace, ⟨hhead, -⟩ | ⟨y, hy, -, herror⟩⟩ :=
    readWhile_cases g Text.isSpace c
  · right
    cases rest with
    | nil =>
      -- Only white space would be left.
      obtain ⟨x, hx, hnot⟩ := List.any_eq_true.1 hc
      rw [hrest, List.append_nil] at hx
      rw [(hspace x hx).1] at hnot
      cases hnot
    | cons x rest =>
      have hx := hhead x rfl
      have hblank : ∀ y ∈ space, Text.isSpace y := fun y hy => (hspace y hy).1
      have hc : c = ⟨c.pos, space ++ x :: rest⟩ := by rw [← hrest]
      refine ⟨space, c.pos + space.length, x, rest, ⟨hrest, rfl⟩, hblank, hx, ?_⟩
      rw [hc]
      exact readToken_skip hblank (fun y hy => (hspace y hy).2) hx
  · left
    have hskip : skipSpace g c = .error _ _ := bind_of_error herror
    have hread : readToken g c = .error _ _ :=
      (bind_of_ok (c := c) rfl).trans (bind_of_error hskip)
    exact ⟨_, _, y, hread, within_of_readWhile herror, rfl⟩

/-- Where more than white space is left, reading a token goes on behind the white space, unless
this is forbidden. -/
theorem readToken_of_hasNext (g : Grammar) (hc : c.hasNext) :
    (∃ e d, readToken g c = .error e d ∧ e.Within c.stop) ∨
      ∃ space d, c.Passed space d ∧ (∀ x ∈ space, Text.isSpace x) ∧
        readToken g c = readToken g d ∧ Outcome g d := by
  rcases readToken_behind_space g hc with
    ⟨e, d, -, herror, hwithin, -⟩ | ⟨space, n, x, rest, hpassed, hblank, hx, hread⟩
  · exact .inl ⟨e, d, herror, hwithin⟩
  · exact .inr ⟨space, ⟨n, x :: rest⟩, hpassed, hblank, hread, outcome_cons g n rest hx⟩

/-- A token stands behind white space, and it is read from its own characters alone. -/
theorem readToken_alone (hc : c.hasNext) (h : readToken g c = .ok t c') :
    ∃ space d run, c.Passed space d ∧ (∀ x ∈ space, Text.isSpace x) ∧ d.Passed run c' ∧
      t.start = d.pos ∧ t.stop = c'.pos ∧ StandsAlone g run t.kind := by
  rcases readToken_of_hasNext g hc with
    ⟨e, d, herror, -⟩ | ⟨space, d, hspace, hblank, hread, houtcome⟩
  · cases herror.symm.trans h
  · rw [hread] at h
    cases houtcome with
    | error herror => cases herror.symm.trans h
    | @ok run kind d' hok hrun halone =>
      obtain ⟨rfl, rfl⟩ := EStateM.Result.ok.inj (hok.symm.trans h)
      exact ⟨space, d, run, hspace, hblank, hrun, rfl, rfl, halone⟩

/-- Where more than white space is left, reading a token fails within the text. -/
theorem within_of_readToken (hc : c.hasNext) (h : readToken g c = .error e c') :
    e.Within c.stop := by
  rcases readToken_of_hasNext g hc with
    ⟨e', d, herror, hwithin⟩ | ⟨space, d, hspace, -, hread, houtcome⟩
  · obtain ⟨rfl, -⟩ := EStateM.Result.error.inj (herror.symm.trans h)
    exact hwithin
  · rw [hread] at h
    cases houtcome with
    | error herror hwithin =>
      obtain ⟨rfl, -⟩ := EStateM.Result.error.inj (herror.symm.trans h)
      rw [← hspace.stop_eq]
      exact hwithin
    | ok hok => cases hok.symm.trans h

end Lexer

end VersionRules
