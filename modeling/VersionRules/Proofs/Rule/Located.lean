import VersionRules.Proofs.Rule.Offences
import VersionRules.Proofs.Token.Places

/-!
# Where a rejected rule is at fault

A rule is rejected while it is split into tokens, while the tokens are put into a tree, or while the
tree is given a meaning. An error of the first two stages lies in the rule: at one of its
characters, at a range of them, or at one of its tokens, whose characters are this token or fail for
the same reason when they are a rule of their own. The last stage has nothing left to reject but a
rule without tokens, and that is a rule of white space alone.

## Main definitions

* `RuleError.LocatedIn` — the errors that lie in a rule

## Main results

* `locatedIn_of_tokens`, `locatedIn_of_parse` — the errors of the first two stages lie in the rule
* `rejected_rule_located` — where filters and rankings find fault with a rule
-/

namespace VersionRules

variable {g : Grammar} {rule : String} {ts : List Token} {t : Token} {a : Arena} {e : RuleError}
  {order : StringOrder}

/-- An error lies in a rule. -/
structure RuleError.LocatedIn (e : RuleError) (g : Grammar) (rule : String) : Prop where
  /-- it has a position, which is at most the end of the rule -/
  exists_start : ∃ pos, e.place.start? = some pos ∧ pos ≤ rule.length
  /-- if it has an end, then there is a character between the position and the end -/
  range : ∀ pos stop, e.place.start? = some pos → e.place.stop? = some stop →
    pos < stop ∧ stop ≤ rule.length
  /-- a forbidden character is a character of the rule -/
  forbidden : ∀ pos x, e.place.start? = some pos → e.cause = .forbiddenCharacter x →
    pos < rule.length
  /-- if it has a token, then its range is that of the token, and the characters in it are this
  token, or give the same error, when they are a rule of their own -/
  token : ∀ t, e.place.token? = some t →
    e.place.start? = some t.start ∧ e.place.stop? = some t.stop ∧
      (g.tokens (Text.slice rule t.start t.stop) = .ok [t.alone] ∨
        g.tokens (Text.slice rule t.start t.stop) = .error (.atToken e.cause t.alone))

/-! ### Tokens -/

theorem RuleError.Within.locatedIn (h : e.Within rule.length) : e.LocatedIn g rule := by
  cases h with
  | char h =>
    refine ⟨⟨_, rfl, Nat.le_of_lt h⟩, nofun, ?_, nofun⟩
    rintro pos x ⟨⟩ -
    exact h
  | range hstart hstop =>
    refine ⟨⟨_, rfl, by omega⟩, ?_, ?_, nofun⟩
    · rintro pos stop ⟨⟩ ⟨⟩
      exact ⟨hstart, hstop⟩
    · rintro pos x ⟨⟩ -
      omega

/-- An error about a token that stands in the rule. -/
theorem Token.StandsIn.locatedIn {cause : RuleError.Cause} (h : t.StandsIn g rule)
    (hslice : g.tokens (Text.slice rule t.start t.stop) = .ok [t.alone] ∨
      g.tokens (Text.slice rule t.start t.stop) = .error (.atToken cause t.alone)) :
    (RuleError.atToken cause t).LocatedIn g rule := by
  have hstart := h.start_lt
  have hstop := h.stop_le
  refine ⟨⟨t.start, rfl, by omega⟩, ?_, ?_, ?_⟩
  · rintro pos stop ⟨⟩ ⟨⟩
    exact ⟨hstart, hstop⟩
  · rintro pos x ⟨⟩ -
    omega
  · rintro u ⟨⟩
    exact ⟨rfl, rfl, hslice⟩

theorem locatedIn_of_tokens (h : g.tokens rule = .error e) : e.LocatedIn g rule := by
  rcases Grammar.tokens_error_cases h with hwithin | ⟨cause, t, rfl, hstands, hslice⟩
  · exact hwithin.locatedIn
  · exact hstands.locatedIn (.inr hslice)

/-! ### Trees -/

/-- The table of neighbours finds fault with one of the tokens. -/
theorem exists_mem_of_checkFollowers (h : checkFollowers ts = .error e) :
    ∃ t ∈ ts, ∃ cause, e = .atToken cause t := by
  induction ts with
  | nil => cases h
  | cons t ts ih =>
    rw [checkFollowers] at h
    split at h
    · obtain ⟨u, hu, hcause⟩ := ih h
      exact ⟨u, List.mem_cons_of_mem t hu, hcause⟩
    · obtain rfl := Except.error.inj h
      exact ⟨t, List.mem_cons_self, _, rfl⟩

theorem exists_mem_of_checkNeighbours (h : checkNeighbours ts = .error e) :
    ∃ t ∈ ts, ∃ cause, e = .atToken cause t := by
  cases ts with
  | nil => cases h
  | cons t ts =>
    rw [checkNeighbours] at h
    split at h
    · exact exists_mem_of_checkFollowers h
    · obtain rfl := Except.error.inj h
      exact ⟨t, List.mem_cons_self, _, rfl⟩

/-- What is wrong with a list of tokens is wrong with one of them, or lies behind the last one. -/
theorem parse_error_cases (h : parse ts = .error e) :
    (∃ t ∈ ts, ∃ cause, e = .atToken cause t) ∨
      ∃ t ∈ ts, ∃ count, e = ⟨.unclosedParens count, .char t.stop⟩ := by
  cases hts : checkNeighbours ts with
  | error e' =>
    rw [parse, hts] at h
    obtain rfl := Except.error.inj h
    exact .inl (exists_mem_of_checkNeighbours hts)
  | ok =>
    rcases (parse_eq_error_iff hts).1 h with
      ⟨t, ⟨us, vs, rfl, -⟩, rfl⟩ | ⟨-, -, last, count, hlast, -, rfl⟩
    · exact .inl ⟨t, by simp, _, rfl⟩
    · exact .inr ⟨last, List.mem_of_getLast? hlast, count, rfl⟩

theorem locatedIn_of_parse (hts : g.tokens rule = .ok ts) (h : parse ts = .error e) :
    e.LocatedIn g rule := by
  rcases parse_error_cases h with ⟨t, ht, cause, rfl⟩ | ⟨t, ht, count, rfl⟩
  · obtain ⟨hstands, hslice⟩ := Grammar.standsIn_of_mem_tokens hts ht
    exact hstands.locatedIn (.inl hslice)
  · -- The place behind the last token may be the end of the rule.
    obtain ⟨hstands, -⟩ := Grammar.standsIn_of_mem_tokens hts ht
    exact ⟨⟨t.stop, rfl, hstands.stop_le⟩, nofun, nofun, nofun⟩

/-! ### Meanings -/

/-- What an error says of a rule: it is the error of an empty rule if the rule is white space alone,
and otherwise it lies in the rule. -/
def RuleError.Explains (e : RuleError) (g : Grammar) (rule : String) : Prop :=
  (∀ x ∈ rule.toList, Text.isSpace x) ∧ e = .emptyRule ∨
    (¬ ∀ x ∈ rule.toList, Text.isSpace x) ∧ e.LocatedIn g rule

/-- Only to a rule without tokens is a condition denied after its tokens have been put into a
tree. -/
theorem eq_nil_of_condition (h : parse ts = .ok a) (hno : ∀ t ∈ ts, t.type ≠ .order)
    (he : a.expression.condition = .error e) : ts = [] ∧ e = .emptyRule := by
  refine ⟨?_, eq_emptyRule_of_condition h hno he⟩
  apply Classical.byContradiction
  intro hts
  obtain ⟨c, hc⟩ := (derivesRule_of_parse h).exists_condition_iff.2 ⟨hts, hno⟩
  cases he.symm.trans hc

theorem eq_nil_of_preference (h : parse ts = .ok a)
    (he : a.expression.preference order = .error e) : ts = [] ∧ e = .emptyRule := by
  refine ⟨?_, eq_emptyRule_of_preference h he⟩
  apply Classical.byContradiction
  intro hts
  obtain ⟨p, hp⟩ := ((derivesRule_of_parse h).exists_preference_iff order).2 hts
  cases he.symm.trans hp

/-- A rule is explained by its error if only an empty list of tokens is denied a meaning. -/
theorem explains_of_error {α : Type} {meaning : List Token → Arena → Except RuleError α}
    (hmeaning : ∀ ts a, g.tokens rule = .ok ts → parse ts = .ok a → meaning ts a = .error e →
      ts = [] ∧ e = .emptyRule)
    (h : (do
      let ts ← g.tokens rule
      let a ← parse ts
      meaning ts a) = .error e) : e.Explains g rule := by
  have hblank : (∀ x ∈ rule.toList, Text.isSpace x) → g.tokens rule = .ok [] :=
    Grammar.tokens_eq_nil_iff.2
  rcases bind_eq_error_iff.1 h with htokens | ⟨ts, hts, h⟩
  · refine .inr ⟨fun hspace => ?_, locatedIn_of_tokens htokens⟩
    cases (hblank hspace).symm.trans htokens
  · rcases bind_eq_error_iff.1 h with hparse | ⟨a, ha, he⟩
    · refine .inr ⟨fun hspace => ?_, locatedIn_of_parse hts hparse⟩
      -- An empty list of tokens has a tree.
      obtain rfl := Except.ok.inj ((hblank hspace).symm.trans hts)
      cases hparse
    · obtain ⟨rfl, rfl⟩ := hmeaning ts a hts ha he
      exact .inl ⟨Grammar.tokens_eq_nil_iff.1 hts, rfl⟩

/-- **A rejected rule is located.** If a query is no filter, or a rule is no ranking, then it is
white space alone and the error is that of an empty rule, which has no position; or the error lies
in the rule. -/
theorem rejected_rule_located (rule : String) :
    (∀ e, Filter.ofQuery (some rule) = .error e → e.Explains Filter.grammar rule) ∧
      (∀ order e, Ranking.ofRules order [rule] = .error e → e.Explains Rank.grammar rule) ∧
      RuleError.emptyRule.place.start? = none := by
  refine ⟨?_, ?_, rfl⟩
  · intro e h
    refine explains_of_error ?_ h
    intro ts a hts ha he
    exact eq_nil_of_condition ha (Filter.type_ne_order hts) (map_eq_error_iff.1 he)
  · intro order e h
    refine explains_of_error ?_ (Ranking.ofRules_singleton_eq_error_iff.1 h)
    intro ts a hts ha he
    exact eq_nil_of_preference ha (map_eq_error_iff.1 he)

/-- A query with an impossible value at its end, a rule with a parenthesis left open, and a blank
rule. -/
theorem rejected_rule_located_quality :
    (∃ e, Filter.ofQuery (some "BUILD:1, QUALITY:good") = .error e ∧
        e.place = .token ⟨9, 21, .qualifier .quality ["good"]⟩ ∧
        e.Explains Filter.grammar "BUILD:1, QUALITY:good") ∧
      (∃ e, Ranking.ofRules .natural ["(BUILD:1 "] = .error e ∧ e.place = .char 8 ∧
        e.Explains Rank.grammar "(BUILD:1 ") ∧
      ∃ e, Ranking.ofRules .natural [" \t"] = .error e ∧ e = .emptyRule ∧
        e.Explains Rank.grammar " \t" := by
  refine ⟨?_, ?_, ?_⟩
  · have htokens : Filter.grammar.tokens "BUILD:1, QUALITY:good" =
        .error (.atToken (.badValue (.badWord .quality "good"))
          ⟨9, 21, .qualifier .quality ["good"]⟩) := by
      decide +kernel
    have herror : Filter.ofQuery (some "BUILD:1, QUALITY:good") = .error _ :=
      bind_eq_error_iff.2 (.inl htokens)
    exact ⟨_, herror, rfl, (rejected_rule_located _).1 _ herror⟩
  · have htokens : Rank.grammar.tokens "(BUILD:1 " =
        .ok [⟨0, 1, .lparen⟩, ⟨1, 8, .qualifier .build ["1"]⟩] := by
      decide +kernel
    have hparse : parse [⟨0, 1, .lparen⟩, ⟨1, 8, .qualifier .build ["1"]⟩] =
        .error ⟨.unclosedParens 1, .char 8⟩ := by
      decide
    have herror : Ranking.ofRules .natural ["(BUILD:1 "] = .error _ :=
      Ranking.ofRules_singleton_eq_error_iff.2
        (bind_eq_error_iff.2 (.inr ⟨_, htokens, bind_eq_error_iff.2 (.inl hparse)⟩))
    exact ⟨_, herror, rfl, (rejected_rule_located _).2.1 _ _ herror⟩
  · have htokens : Rank.grammar.tokens " \t" = .ok [] := by decide +kernel
    have herror : Ranking.ofRules .natural [" \t"] = .error .emptyRule :=
      Ranking.ofRules_singleton_eq_error_iff.2 (bind_eq_error_iff.2 (.inr ⟨_, htokens, rfl⟩))
    exact ⟨_, herror, rfl, (rejected_rule_located _).2.1 _ _ herror⟩

end VersionRules
