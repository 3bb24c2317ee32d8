import VersionRules.Proofs.Text.Characters
import VersionRules.Proofs.Token.Forbidden
import VersionRules.Rule.Ranking

/-!
# Asking for tokens again and again

Whoever asks for one token after the other, and goes on after errors, comes to the end of the rule:
every token and every error passes a character. There is one exception. A forbidden character is
reported without being passed, and if more than white space is left, it is reported again and again.

## Main definitions

* `Lexer.call`, `Lexer.after`, `Lexer.item?` — asking once, and many times
* `Lexer.Called` — what one call can do
* `Lexer.Ends`, `Lexer.Obstacle` — what many calls can come to

## Main results

* `Lexer.length_of_nextToken_error` — errors pass characters
* `Lexer.called`, `Lexer.call_of_forbids` — one call
* `Lexer.exists_ends`, `Lexer.Obstacle.item?_eq` — many calls
* `iteration_ends_or_repeats` — the rules in which asking comes to an end
-/

namespace VersionRules

variable {g : Grammar} {α : Type} {c c' d : Cursor} {x : Char} {e : RuleError} {t : Token}
  {run : List Char} {n : Nat}

namespace Lexer

/-! ### One call -/

/-- One call: a token or an error, unless only white space is left, and where the cursor is then. -/
def call (g : Grammar) (c : Cursor) : Option (Except RuleError Token) × Cursor :=
  match next? g c with
  | .ok t? c' => (t?.map .ok, c')
  | .error e c' => (some (.error e), c')

theorem call_of_not_hasNext (hc : c.hasNext = false) : call g c = (none, c) := by
  simp [call, next?, hc]

theorem call_of_ok (hc : c.hasNext) (h : nextToken g c = .ok t c') :
    call g c = (some (.ok t), c') := by
  have hnext : (some <$> nextToken g) c = .ok (some t) c' := by
    show EStateM.map some (nextToken g) c = _
    rw [EStateM.map, h]
  simp only [call, next?, hc, if_true, hnext]
  rfl

theorem call_of_error (hc : c.hasNext) (h : nextToken g c = .error e c') :
    call g c = (some (.error e), c') := by
  have hnext : (some <$> nextToken g) c = .error e c' := by
    show EStateM.map some (nextToken g) c = _
    rw [EStateM.map, h]
  simp only [call, next?, hc, if_true, hnext]

/-! ### Errors pass characters -/

/-- Where a run of characters is cut short, a forbidden character is reported. -/
theorem exists_forbidden_of_readWhile {p : Char → Bool} (h : readWhile g p c = .error e c') :
    ∃ x, e.cause = .forbiddenCharacter x := by
  obtain ⟨run, rest, -, -, ⟨-, hok⟩ | ⟨x, -, -, herror⟩⟩ := readWhile_cases g p c
  · cases hok.symm.trans h
  · obtain ⟨rfl, -⟩ := EStateM.Result.error.inj (herror.symm.trans h)
    exact ⟨x, rfl⟩

theorem Guarded.length_le {m m' : Lexer α} (hm : Guarded g m m' c) (h : m c = .error e c') :
    c'.rest.length ≤ c.rest.length := by
  cases hm with
  | ok h₁ => cases h₁.symm.trans h
  | error h₁ _ hrun | forbidden h₁ hrun =>
    obtain ⟨-, rfl⟩ := EStateM.Result.error.inj (h₁.symm.trans h)
    have := hrun.length_eq
    omega

/-- A character that is no token is passed, unless it is reported as forbidden. -/
theorem length_of_readCharToken_error {start : Nat} {rest : List Char}
    (hcause : ∀ x, e.cause ≠ .forbiddenCharacter x)
    (h : readCharToken g x start ⟨n, x :: rest⟩ = .error e c') :
    c'.rest.length < rest.length + 1 := by
  rw [readCharToken_cons] at h
  by_cases hx : g.forbids x
  · rw [if_pos hx] at h
    obtain ⟨rfl, -⟩ := EStateM.Result.error.inj h
    exact absurd rfl (hcause x)
  · rw [if_neg hx] at h
    cases hkind : g.charToken? x with
    | some kind =>
      rw [hkind] at h
      cases h
    | none =>
      rw [hkind] at h
      obtain ⟨-, rfl⟩ := EStateM.Result.error.inj h
      exact Nat.lt_succ_self _

/-- What is no token is passed in part, unless a forbidden character is reported. -/
theorem length_of_readToken_error (hc : c.hasNext) (hcause : ∀ x, e.cause ≠ .forbiddenCharacter x)
    (h : readToken g c = .error e c') : c'.rest.length < c.rest.length := by
  rcases readToken_behind_space g hc with
    ⟨_, _, x, herror, -, hx⟩ | ⟨space, n, x, rest, hpassed, -, hspace, hread⟩
  · obtain ⟨rfl, -⟩ := EStateM.Result.error.inj (herror.symm.trans h)
    exact absurd hx (hcause x)
  · rw [hread] at h
    have hlength := hpassed.length_eq
    cases hword : readWord g ⟨n, x :: rest⟩ with
    | error e' d =>
      obtain ⟨rfl, -⟩ :=
        EStateM.Result.error.inj ((readToken_of_readWord_error hspace hword).symm.trans h)
      obtain ⟨y, hy⟩ := exists_forbidden_of_readWhile hword
      exact absurd hy (hcause y)
    | ok word d =>
      obtain ⟨hrun, -, -⟩ := readWhile_eq_ok hword
      have hpassed' := hrun.length_eq
      rw [readToken_of_readWord hspace hword] at h
      cases word with
      | nil =>
        obtain rfl := hrun.eq
        rcases bind_eq_error.1 h with h | ⟨kind, d', -, h⟩
        · have := length_of_readCharToken_error hcause h
          simp only [List.length_cons] at hlength
          omega
        · cases h
      | cons y ys =>
        rcases bind_eq_error.1 h with h | ⟨kind, d', -, h⟩
        · have := (guarded_readWordToken _ _ d).length_le h
          simp only [List.length_cons] at hlength hpassed'
          omega
        · cases h

/-- Every token and every error passes a character, except for the error of a forbidden one. -/
theorem length_of_nextToken_error (hc : c.hasNext) (hcause : ∀ x, e.cause ≠ .forbiddenCharacter x)
    (h : nextToken g c = .error e c') : c'.rest.length < c.rest.length := by
  rcases bind_eq_error.1 h with h | ⟨t, d, hread, h⟩
  · exact length_of_readToken_error hc hcause h
  · have hlength := length_of_readToken hread
    cases ht : checkValue t with
    | ok t =>
      rw [ht] at h
      cases h
    | error e =>
      rw [ht] at h
      obtain ⟨-, rfl⟩ := EStateM.Result.error.inj h
      exact hlength

/-! ### What one call does -/

/-- What one call does: nothing at the end of the rule, or it passes characters, none of which is
forbidden, or it comes to a forbidden character and stays before it. -/
inductive Called (g : Grammar) (c : Cursor) : Prop
  | done (hc : c.hasNext = false) (h : call g c = (none, c))
  | passed {item : Except RuleError Token} {run : List Char} {c' : Cursor} (hc : c.hasNext)
      (h : call g c = (some item, c')) (hrun : c.Passed run c') (hne : run ≠ [])
      (hallowed : ∀ x ∈ run, g.forbids x = false)
  | stays {x : Char} {run : List Char} {c' : Cursor} (hc : c.hasNext)
      (h : call g c = (some (.error ⟨.forbiddenCharacter x, .char c'.pos⟩), c'))
      (hrun : c.Passed run c') (hallowed : ∀ x ∈ run, g.forbids x = false)
      (hx : x ∈ c'.rest.head?) (hforbids : g.forbids x)

theorem called (g : Grammar) (c : Cursor) : Called g c := by
  have hne {run : List Char} {c' : Cursor} (hrun : c.Passed run c')
      (hlt : c'.rest.length < c.rest.length) : run ≠ [] := by
    rintro rfl
    rw [hrun.eq] at hlt
    exact Nat.lt_irrefl _ hlt
  cases hc : c.hasNext with
  | false => exact .done hc (call_of_not_hasNext hc)
  | true =>
    cases guarded_nextToken c with
    | ok h _ hrun hallowed =>
      exact .passed hc (call_of_ok hc h) hrun (hne hrun (length_of_nextToken h)) hallowed
    | error h _ hrun hallowed hcause =>
      exact .passed hc (call_of_error hc h) hrun
        (hne hrun (length_of_nextToken_error hc hcause h)) hallowed
    | forbidden h hrun hallowed hx hforbids =>
      exact .stays hc (call_of_error hc h) hrun hallowed hx hforbids

/-- No character is passed before a forbidden one. -/
theorem eq_nil_of_forbids (hrun : c.Passed run c') (hallowed : ∀ y ∈ run, g.forbids y = false)
    (hx : x ∈ c.rest.head?) (hforbids : g.forbids x) : run = [] := by
  cases run with
  | nil => rfl
  | cons y ys =>
    rw [hrun.rest_eq] at hx
    obtain rfl : y = x := Option.some.inj hx
    cases (hallowed y List.mem_cons_self).symm.trans hforbids

/-- A cursor before a forbidden character does not move. -/
theorem call_of_forbids (hc : c.hasNext) (hx : x ∈ c.rest.head?) (hforbids : g.forbids x) :
    call g c = (some (.error ⟨.forbiddenCharacter x, .char c.pos⟩), c) := by
  cases called g c with
  | done hdone => cases hdone.symm.trans hc
  | passed _ h hrun hne hallowed => exact absurd (eq_nil_of_forbids hrun hallowed hx hforbids) hne
  | stays _ h hrun hallowed hy =>
    obtain rfl := eq_nil_of_forbids hrun hallowed hx hforbids
    obtain rfl := hrun.eq
    obtain rfl := Option.some.inj (hx.symm.trans hy)
    exact h

/-! ### Many calls -/

/-- The cursor after `n` calls. -/
def after (g : Grammar) : Nat → Cursor → Cursor
  | 0, c => c
  | n + 1, c => after g n (call g c).2

/-- What the next call gives after `n` calls. -/
def item? (g : Grammar) (c : Cursor) (n : Nat) : Option (Except RuleError Token) :=
  (call g (after g n c)).1

/-- Asking comes to an end after `n` calls, each of which passes a character. -/
structure Ends (g : Grammar) (c : Cursor) (n : Nat) : Prop where
  item?_eq_none_iff (k : Nat) : item? g c k = none ↔ n ≤ k
  pos_lt {k : Nat} (hk : k < n) : (after g k c).pos < (after g (k + 1) c).pos

/-- A forbidden character `x` that is not passed: the first one, at a cursor `d` further on, and not
in the white space at the end. -/
structure Obstacle (g : Grammar) (c : Cursor) (x : Char) (d : Cursor) : Prop where
  exists_run : ∃ run, c.Passed run d ∧ ∀ y ∈ run, g.forbids y = false
  head : x ∈ d.rest.head?
  forbids : g.forbids x
  hasNext : d.hasNext

theorem after_succ {item : Option (Except RuleError Token)} (h : call g c = (item, c')) (n : Nat) :
    after g (n + 1) c = after g n c' := by
  rw [after, h]

theorem item?_succ {item : Option (Except RuleError Token)} (h : call g c = (item, c')) (n : Nat) :
    item? g c (n + 1) = item? g c' n := by
  rw [item?, item?, after_succ h]

theorem item?_of_not_hasNext (hc : c.hasNext = false) (k : Nat) : item? g c k = none := by
  have hcall := call_of_not_hasNext (g := g) hc
  induction k with
  | zero => exact congrArg Prod.fst hcall
  | succ k ih => rw [item?_succ hcall, ih]

theorem item?_of_forbids (hc : c.hasNext) (hx : x ∈ c.rest.head?) (hforbids : g.forbids x)
    (k : Nat) : item? g c k = some (.error ⟨.forbiddenCharacter x, .char c.pos⟩) := by
  have hcall := call_of_forbids hc hx hforbids
  induction k with
  | zero => exact congrArg Prod.fst hcall
  | succ k ih => rw [item?_succ hcall, ih]

theorem ends_of_not_hasNext (hc : c.hasNext = false) : Ends g c 0 where
  item?_eq_none_iff k := iff_of_true (item?_of_not_hasNext hc k) (Nat.zero_le k)
  pos_lt hk := absurd hk (Nat.not_lt_zero _)

theorem Ends.succ {item : Except RuleError Token} (h : call g c = (some item, c'))
    (hlt : c.pos < c'.pos) (hends : Ends g c' n) : Ends g c (n + 1) := by
  constructor
  · intro k
    cases k with
    | zero => simp [item?, after, h]
    | succ k => rw [item?_succ h, Nat.add_le_add_iff_right, hends.item?_eq_none_iff]
  · intro k hk
    cases k with
    | zero =>
      rw [after_succ h]
      exact hlt
    | succ k =>
      rw [after_succ h, after_succ h]
      exact hends.pos_lt (Nat.lt_of_succ_lt_succ hk)

/-! ### Obstacles -/

namespace Obstacle

/-- What was passed before an obstacle does not matter. -/
theorem of_passed (hrun : c.Passed run c') (hallowed : ∀ y ∈ run, g.forbids y = false)
    (h : Obstacle g c' x d) : Obstacle g c x d := by
  obtain ⟨run', hrun', hallowed'⟩ := h.exists_run
  exact { h with
    exists_run := ⟨run ++ run', hrun.trans hrun', List.forall_mem_append.2 ⟨hallowed, hallowed'⟩⟩ }

/-- An obstacle is still ahead when no forbidden character was passed. -/
theorem ahead (h : Obstacle g c x d) (hrun : c.Passed run c')
    (hallowed : ∀ y ∈ run, g.forbids y = false) : Obstacle g c' x d := by
  refine { h with exists_run := ?_ }
  obtain ⟨run', hrun', hallowed'⟩ := h.exists_run
  have hpos := hrun.pos_eq
  have hpos' := hrun'.pos_eq
  rcases List.append_eq_append_iff.1 (hrun'.rest_eq.symm.trans hrun.rest_eq) with
    ⟨more, hmore, hrest⟩ | ⟨more, rfl, hrest⟩
  · -- More could only have been passed if it began with the obstacle.
    cases more with
    | nil =>
      rw [List.append_nil] at hmore
      subst hmore
      exact ⟨[], ⟨hrest.symm, by rw [hpos', hpos]; rfl⟩, nofun⟩
    | cons y ys =>
      have hhead := h.head
      rw [hrest] at hhead
      obtain rfl : y = x := Option.some.inj hhead
      have hmem : y ∈ run := hmore ▸ List.mem_append_right run' List.mem_cons_self
      cases (hallowed y hmem).symm.trans h.forbids
  · refine ⟨more, ⟨hrest, ?_⟩, (List.forall_mem_append.1 hallowed').2⟩
    rw [List.length_append] at hpos'
    omega

theorem pos_le (h : Obstacle g c x d) : c.pos ≤ d.pos := by
  obtain ⟨run, hrun, -⟩ := h.exists_run
  rw [hrun.pos_eq]
  exact Nat.le_add_right _ _

theorem hasNext_of_le (h : Obstacle g c x d) : c.hasNext := by
  obtain ⟨run, hrun, -⟩ := h.exists_run
  have hnext := h.hasNext
  rw [Cursor.hasNext] at hnext ⊢
  rw [hrun.rest_eq, List.any_append, hnext, Bool.or_true]

/-- Before a forbidden character, this is the obstacle. -/
theorem eq_of_forbids {y : Char} (h : Obstacle g c x d) (hy : y ∈ c.rest.head?)
    (hforbids : g.forbids y) : d = c ∧ x = y := by
  obtain ⟨run, hrun, hallowed⟩ := h.exists_run
  obtain rfl := eq_nil_of_forbids hrun hallowed hy hforbids
  obtain rfl := hrun.eq
  exact ⟨rfl, Option.some.inj (h.head.symm.trans hy)⟩

/-- From some call on, an obstacle is reported by all calls. -/
theorem item?_eq (h : Obstacle g c x d) : ∃ n, c.pos + n ≤ d.pos ∧
    ∀ k, n ≤ k → item? g c k = some (.error ⟨.forbiddenCharacter x, .char d.pos⟩) := by
  induction hlength : c.rest.length using Nat.strongRecOn generalizing c with
  | ind length ih =>
    cases called g c with
    | done hc => cases hc.symm.trans h.hasNext_of_le
    | @passed item run c' _ hcall hrun hne hallowed =>
      have hahead := h.ahead hrun hallowed
      have hpos := List.length_pos_iff.2 hne
      have hlength' := hrun.length_eq
      obtain ⟨n, hn, hitems⟩ := ih c'.rest.length (by omega) hahead rfl
      refine ⟨n + 1, by rw [hrun.pos_eq] at hn; omega, fun k hk => ?_⟩
      cases k with
      | zero => cases hk
      | succ k =>
        rw [item?_succ hcall]
        exact hitems k (Nat.le_of_succ_le_succ hk)
    | @stays y run c' _ hcall hrun hallowed hy hforbids =>
      obtain ⟨rfl, rfl⟩ := (h.ahead hrun hallowed).eq_of_forbids hy hforbids
      refine ⟨0, h.pos_le, fun k _ => ?_⟩
      cases k with
      | zero => exact congrArg Prod.fst hcall
      | succ k =>
        rw [item?_succ hcall]
        exact item?_of_forbids h.hasNext hy hforbids k

end Obstacle

/-- If there is no obstacle, asking comes to an end, after no more calls than there are
characters. -/
theorem exists_ends (h : ∀ x d, ¬Obstacle g c x d) : ∃ n ≤ c.rest.length, Ends g c n := by
  induction hlength : c.rest.length using Nat.strongRecOn generalizing c with
  | ind length ih =>
    subst hlength
    cases called g c with
    | done hc => exact ⟨0, Nat.zero_le _, ends_of_not_hasNext hc⟩
    | @passed item run c' _ hcall hrun hne hallowed =>
      have hpos := List.length_pos_iff.2 hne
      have hlength := hrun.length_eq
      obtain ⟨n, hn, hends⟩ :=
        ih c'.rest.length (by omega) (fun x d hd => h x d (hd.of_passed hrun hallowed)) rfl
      exact ⟨n + 1, by omega, hends.succ hcall (by rw [hrun.pos_eq]; omega)⟩
    | @stays x run c' hc hcall hrun hallowed hx hforbids =>
      -- What is left behind the forbidden character is white space, or it would be an obstacle.
      cases hc' : c'.hasNext with
      | true => exact absurd ⟨⟨run, hrun, hallowed⟩, hx, hforbids, hc'⟩ (h x c')
      | false =>
        have hne : run ≠ [] := by
          rintro rfl
          rw [hrun.eq, hc] at hc'
          cases hc'
        have hpos := List.length_pos_iff.2 hne
        have hlength := hrun.length_eq
        exact ⟨1, by omega, (ends_of_not_hasNext hc').succ hcall (by rw [hrun.pos_eq]; omega)⟩

/-- There is an obstacle if a character is forbidden that is not in the white space at the end. -/
theorem exists_obstacle_iff :
    (∃ x d, Obstacle g c x d) ↔ ∃ x ∈ Text.trimEnd c.rest, g.forbids x := by
  obtain ⟨space, hsplit, hspace, hlast⟩ := Text.exists_trimEnd_append c.rest
  constructor
  · rintro ⟨x, d, hobstacle⟩
    obtain ⟨run, hrun, -⟩ := hobstacle.exists_run
    obtain ⟨y, hy, hynot⟩ := List.any_eq_true.1 hobstacle.hasNext
    have hnot : y ∉ space := fun hmem => by simp [hspace y hmem] at hynot
    refine ⟨x, ?_, hobstacle.forbids⟩
    rcases List.append_eq_append_iff.1 (hrun.rest_eq.symm.trans hsplit) with
      ⟨more, hmore, hrest⟩ | ⟨more, -, hrest⟩
    · have hhead := hobstacle.head
      rw [hrest] at hy hhead
      obtain ⟨z, zs, rfl⟩ : ∃ z zs, more = z :: zs :=
        List.exists_cons_of_ne_nil fun hnil => hnot (by simpa [hnil] using hy)
      obtain rfl : z = x := Option.some.inj hhead
      rw [hmore]
      exact List.mem_append_right run List.mem_cons_self
    · rw [hrest] at hnot
      exact absurd (List.mem_append_right more hy) hnot
  · rintro ⟨y, hy, hyforbids⟩
    obtain ⟨x, hfind⟩ := Option.isSome_iff_exists.1 (List.find?_isSome.2 ⟨y, hy, hyforbids⟩)
    obtain ⟨hx, run, more, hmore, hallowed⟩ := List.find?_eq_some_iff_append.1 hfind
    refine ⟨x, ⟨c.pos + run.length, x :: (more ++ space)⟩, ⟨run, ⟨?_, rfl⟩, ?_⟩, rfl, hx, ?_⟩
    · rw [hsplit, hmore]
      simp
    · simpa using hallowed
    · -- The text without the white space at its end has another character at its end.
      have hne := List.cons_ne_nil x more
      have hend : (Text.trimEnd c.rest).getLast? = some ((x :: more).getLast hne) := by
        rw [hmore, List.getLast?_append, List.getLast?_eq_some_getLast hne]
        rfl
      refine List.any_eq_true.2 ⟨(x :: more).getLast hne, ?_, ?_⟩
      · exact List.mem_append_left space (List.getLast_mem hne)
      · rw [hlast _ hend, Bool.not_false]

end Lexer

/-- **Asking for tokens again and again.** If no character is forbidden in a rule, the white space
at its end aside, then going on after errors comes to the end of the rule, after no more tokens and
errors than there are characters, each of which passes a character. Otherwise the first forbidden
character is reported by all calls from one on. -/
theorem iteration_ends_or_repeats (g : Grammar) (rule : String) :
    ((∀ x ∈ Text.trimEnd rule.toList, g.forbids x = false) →
        ∃ n ≤ rule.length, Lexer.Ends g (.ofRule rule) n) ∧
      ((∃ x ∈ Text.trimEnd rule.toList, g.forbids x) →
        ∃ p x, rule.toList[p]? = some x ∧ g.forbids x ∧
          (∀ y ∈ rule.toList.take p, g.forbids y = false) ∧
          ∃ n ≤ p, ∀ k, n ≤ k → Lexer.item? g (.ofRule rule) k =
            some (.error ⟨.forbiddenCharacter x, .char p⟩)) := by
  constructor
  · intro hallowed
    have hfree : ∀ x d, ¬Lexer.Obstacle g (.ofRule rule) x d := by
      intro x d hobstacle
      obtain ⟨y, hy, hforbids⟩ := Lexer.exists_obstacle_iff.1 ⟨x, d, hobstacle⟩
      cases (hallowed y hy).symm.trans hforbids
    obtain ⟨n, hn, hends⟩ := Lexer.exists_ends hfree
    exact ⟨n, Nat.le_trans hn (Nat.le_of_eq String.length_toList), hends⟩
  · intro hforbidden
    obtain ⟨x, d, hobstacle⟩ := (Lexer.exists_obstacle_iff (c := .ofRule rule)).2 hforbidden
    obtain ⟨run, hrun, hallowed⟩ := hobstacle.exists_run
    obtain ⟨n, hn, hitems⟩ := hobstacle.item?_eq
    refine ⟨d.pos, x, hrun.getElem?_eq.trans hobstacle.head, hobstacle.forbids, ?_, n, ?_, hitems⟩
    · rw [hrun.take_eq]
      exact hallowed
    · exact Nat.le_trans (Nat.le_add_left _ _) hn

/-- Words that name nothing are passed one after the other, and a comma is not. -/
theorem iteration_ends_or_repeats_comma :
    (∃ n ≤ 5, Lexer.Ends Rank.grammar (.ofRule "a b c") n) ∧
      ∃ p x, "a,".toList[p]? = some x ∧ Rank.grammar.forbids x ∧
        (∀ y ∈ "a,".toList.take p, Rank.grammar.forbids y = false) ∧
        ∃ n ≤ p, ∀ k, n ≤ k → Lexer.item? Rank.grammar (.ofRule "a,") k =
          some (.error ⟨.forbiddenCharacter x, .char p⟩) := by
  have hallowed : ∀ x ∈ Text.trimEnd "a b c".toList, (!Rank.grammar.forbids x) = true :=
    List.all_eq_true.1 rfl
  have hforbidden : (Text.trimEnd "a,".toList).any Rank.grammar.forbids = true := rfl
  exact ⟨(iteration_ends_or_repeats Rank.grammar "a b c").1 fun x hx => by
      simpa using hallowed x hx,
    (iteration_ends_or_repeats Rank.grammar "a,").2 (List.any_eq_true.1 hforbidden)⟩

/-- One character can be reported more than once. -/
theorem not_iteration_ends_within_length :
    ¬∀ (g : Grammar) (rule : String),
      ∃ n ≤ rule.length, Lexer.item? g (.ofRule rule) n = none := by
  intro h
  obtain ⟨n, hn, hnone⟩ := h Rank.grammar ","
  have hn : n ≤ 1 := hn
  rcases Nat.le_one_iff_eq_zero_or_eq_one.1 hn with rfl | rfl <;> cases hnone

end VersionRules
