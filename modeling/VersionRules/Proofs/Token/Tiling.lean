import VersionRules.Proofs.Except
import VersionRules.Proofs.Token.Places

/-!
# The tokens of a rule tile it

Reading goes from one token to the next and passes nothing but white space in between. So the ranges
of the tokens follow each other without overlap, and whatever is outside of them is white space.

## Main definitions

* `Cursor.Tiled` — tokens one behind the other, with white space before, between and behind them
* `Grammar.Tiles` — what is known of the tokens of a rule and of their ranges

## Main results

* `Cursor.Tiled.pairwise`, `Cursor.Tiled.isSpace` — the ranges of such tokens, and what is outside
* `Grammar.tiled_of_tokensFrom` — reading goes from one token to the next
* `Grammar.tiles_of_tokens` — the tokens of a rule tile it
-/

namespace VersionRules

variable {g : Grammar} {c c' d : Cursor} {text : List Char} {rule : String} {t u : Token}
  {ts : List Token} {x : Char} {i : Nat}

/-! ### Tokens one behind the other -/

namespace Cursor

/-- From a cursor on there is white space, and in it the tokens one behind the other. -/
inductive Tiled : Cursor → List Token → Prop
  | blank {c : Cursor} (h : c.hasNext = false) : Tiled c []
  | cons {c d c' : Cursor} {space run : List Char} {t : Token} {ts : List Token}
      (hspace : c.Passed space d) (hblank : ∀ x ∈ space, Text.isSpace x) (hrun : d.Passed run c')
      (hstart : t.start = d.pos) (hstop : t.stop = c'.pos) (h : Tiled c' ts) : Tiled c (t :: ts)

/-- Reading does not go back. -/
theorem Passed.pos_le {run : List Char} (h : c.Passed run c') : c.pos ≤ c'.pos := by
  rw [h.pos_eq]
  exact Nat.le_add_right _ _

/-- What is left to be read is the text from the cursor on. -/
theorem In.getElem?_eq (hc : c.In text) (hi : c.pos ≤ i) : text[i]? = c.rest[i - c.pos]? := by
  rw [hc.rest_eq, List.getElem?_drop, Nat.add_sub_cancel' hi]

namespace Tiled

theorem le_start (h : c.Tiled ts) (ht : t ∈ ts) : c.pos ≤ t.start := by
  induction h with
  | blank => cases ht
  | cons hspace _ hrun hstart _ _ ih =>
    rcases List.mem_cons.1 ht with rfl | ht
    · exact hstart ▸ hspace.pos_le
    · exact Nat.le_trans (Nat.le_trans hspace.pos_le hrun.pos_le) (ih ht)

/-- No token begins before the one before it ends. -/
theorem pairwise (h : c.Tiled ts) : ts.Pairwise fun t u => t.stop ≤ u.start := by
  induction h with
  | blank => exact .nil
  | cons _ _ _ _ hstop h ih => exact .cons (fun u hu => hstop ▸ h.le_start hu) ih

/-- Outside the ranges of the tokens there is only white space. -/
theorem isSpace (h : c.Tiled ts) (hc : c.In text) (hi : c.pos ≤ i) (hx : text[i]? = some x)
    (houtside : ∀ t ∈ ts, i < t.start ∨ t.stop ≤ i) : Text.isSpace x := by
  induction h with
  | blank h =>
    rw [hc.getElem?_eq hi] at hx
    simpa using List.any_eq_false.1 h x (List.mem_of_getElem? hx)
  | @cons c d c' space run t ts hspace hblank hrun hstart hstop h ih =>
    obtain ⟨ht, hts⟩ := List.forall_mem_cons.1 houtside
    rcases ht with hbefore | hbehind
    · -- The character is one of those before the first token.
      rw [hc.getElem?_eq hi, hspace.rest_eq, List.getElem?_append_left] at hx
      · exact hblank x (List.mem_of_getElem? hx)
      · have := hspace.pos_eq
        omega
    · exact ih ((hc.passed hspace).passed hrun) (hstop ▸ hbehind) hts

end Tiled

end Cursor

/-! ### The tokens of a rule -/

namespace Grammar

/-- Reading goes from one token to the next. -/
theorem tiled_of_tokensFrom (h : g.tokensFrom c = .ok ts) : c.Tiled ts := by
  fun_induction tokensFrom g c generalizing ts with
  | case1 c hnext t c' ht ih =>
    obtain ⟨hread, -⟩ := Lexer.readToken_of_nextToken ht
    obtain ⟨space, d, run, hspace, hblank, hrun, hstart, hstop, -⟩ :=
      Lexer.readToken_alone hnext hread
    cases hrest : g.tokensFrom c' with
    | error e =>
      rw [hrest] at h
      cases h
    | ok rest =>
      rw [hrest] at h
      obtain rfl := Except.ok.inj h
      exact .cons hspace hblank hrun hstart hstop (ih hrest)
  | case2 => cases h
  | case3 c hnext =>
    obtain rfl := Except.ok.inj h
    exact .blank (Bool.eq_false_iff.2 hnext)

/-- The tokens tile the rule. Each has a range in the rule that is not empty; the ranges follow each
other, and what is outside of them is white space. The types of the tokens are allowed, terms ask
for values of their qualifiers, and the characters in the range of a token are a rule that consists
of this token. -/
structure Tiles (g : Grammar) (rule : String) (ts : List Token) : Prop where
  start_lt : ∀ t ∈ ts, t.start < t.stop
  stop_le : ∀ t ∈ ts, t.stop ≤ rule.length
  stop_le_start : ts.Pairwise fun t u => t.stop ≤ u.start
  isSpace : ∀ i x, rule.toList[i]? = some x → (∀ t ∈ ts, i < t.start ∨ t.stop ≤ i) → Text.isSpace x
  allows : ∀ t ∈ ts, g.allows t.type
  validate : ∀ t ∈ ts, ∀ q words, t.kind = .qualifier q words → q.validate words = .ok ()
  slice : ∀ t ∈ ts, g.tokens (Text.slice rule t.start t.stop) = .ok [⟨0, t.stop - t.start, t.kind⟩]

/-- **The tokens of a rule tile it.** -/
theorem tiles_of_tokens (h : g.tokens rule = .ok ts) : g.Tiles rule ts := by
  have htiled := tiled_of_tokensFrom h
  have hin := Cursor.in_ofRule rule
  exact
    { start_lt := fun t ht => (standsIn_of_mem_tokens h ht).1.start_lt
      stop_le := fun t ht => (standsIn_of_mem_tokens h ht).1.stop_le
      stop_le_start := htiled.pairwise
      isSpace := fun i x hx houtside => htiled.isSpace hin (Nat.zero_le i) hx houtside
      allows := allows_of_mem_tokens h
      validate := fun t ht q words hkind => validate_of_mem_tokens h ht hkind
      slice := fun t ht => (standsIn_of_mem_tokens h ht).2 }

/-- A term of several words stands between parentheses, and white space in many places. -/
theorem tiles_of_tokens_milestone :
    full.tokens " (milestone :\t'EAP  7.4 DR') sort-by " =
        .ok [⟨1, 2, .lparen⟩, ⟨2, 27, .qualifier .milestone ["EAP", "7.4", "DR"]⟩, ⟨27, 28, .rparen⟩,
          ⟨29, 36, .sortBy⟩] ∧
      full.Tiles " (milestone :\t'EAP  7.4 DR') sort-by "
        [⟨1, 2, .lparen⟩, ⟨2, 27, .qualifier .milestone ["EAP", "7.4", "DR"]⟩, ⟨27, 28, .rparen⟩,
          ⟨29, 36, .sortBy⟩] := by
  have htokens : full.tokens " (milestone :\t'EAP  7.4 DR') sort-by " =
      .ok [⟨1, 2, .lparen⟩, ⟨2, 27, .qualifier .milestone ["EAP", "7.4", "DR"]⟩, ⟨27, 28, .rparen⟩,
        ⟨29, 36, .sortBy⟩] := by
    decide +kernel
  exact ⟨htokens, tiles_of_tokens htokens⟩

end Grammar

end VersionRules
