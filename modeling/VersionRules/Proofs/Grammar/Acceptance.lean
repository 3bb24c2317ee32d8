import VersionRules.Proofs.Grammar.Prefix

/-!
# Which rules are accepted

A list of tokens has a tree exactly if it is a rule. Otherwise there are three errors, and the first
of them that applies is the answer: a token that must not stand where it does, a parenthesis that is
closed without having been opened, and parentheses that are never closed.

## Main definitions

* `IsFirstStray` — the first closing parenthesis that closes nothing
* `Builder.HasRead` — a builder somewhere within a list of tokens

## Main results

* `Builder.HasRead.step`, `Builder.HasRead.run` — what reading one more token, and all others, does
* `exists_parse_eq_ok_iff`, `parse_eq_error_iff` — the accepted lists are the rules, and the errors
  of all others that obey the table
* `parse_verdict` — the same, together with the error of every other list
-/

namespace VersionRules

variable {ts us vs : List Token} {t : Token} {b : Builder} {r : Reading}

/-- The first closing parenthesis that closes nothing: before it all that is closed was opened, and
as many parentheses are closed as are opened. -/
def IsFirstStray (ts : List Token) (t : Token) : Prop :=
  ∃ us vs, ts = us ++ t :: vs ∧ t.type = .rparen ∧ openings us = closings us ∧
    ∀ ws, ws <+: us → closings ws ≤ openings ws

/-- Up to a closing parenthesis that closes nothing, more is closed than was opened. -/
theorem not_prefix_of_closings_le (hle : ∀ ws, ws <+: vs → closings ws ≤ openings ws)
    (ht : t.type = .rparen) (heq : openings us = closings us) : ¬ us ++ [t] <+: vs := by
  intro hprefix
  have hlparen : t.type ≠ .lparen := by simp [ht]
  have hcount := hle _ hprefix
  rw [openings_append, closings_append, openings_cons, closings_cons, if_neg hlparen,
    if_pos ht] at hcount
  simp only [openings_nil, closings_nil] at hcount
  omega

theorem IsFirstStray.not_closings_le (h : IsFirstStray ts t) :
    ¬ ∀ us, us <+: ts → closings us ≤ openings us := by
  obtain ⟨us, vs, rfl, ht, heq, -⟩ := h
  intro hle
  apply not_prefix_of_closings_le hle ht heq
  exact ⟨vs, by simp⟩

/-- Of two such parentheses, the one that stands further back is not the first. -/
theorem IsFirstStray.unique {u : Token} (ht : IsFirstStray ts t) (hu : IsFirstStray ts u) :
    t = u := by
  obtain ⟨us, us', rfl, htype, heq, hle⟩ := ht
  obtain ⟨vs, vs', hsplit, htype', heq', hle'⟩ := hu
  rcases List.append_eq_append_iff.1 hsplit with ⟨ws, rfl, hws⟩ | ⟨ws, rfl, hws⟩
  · cases ws with
    | nil => exact (List.cons.inj hws).1
    | cons w ws =>
      obtain ⟨rfl, -⟩ := List.cons.inj hws
      exact absurd ⟨ws, by simp⟩ (not_prefix_of_closings_le hle' htype heq)
  · cases ws with
    | nil => exact (List.cons.inj hws).1.symm
    | cons w ws =>
      obtain ⟨rfl, -⟩ := List.cons.inj hws
      exact absurd ⟨ws, by simp⟩ (not_prefix_of_closings_le hle htype' heq')

namespace Builder

/-- The builder is somewhere within a list of tokens: its reading stands for what has been read,
and no parenthesis was closed that had not been opened. -/
structure HasRead (b : Builder) (r : Reading) (ts : List Token) : Prop where
  shows : b.Shows r
  covers : r.Covers ts
  openings_eq : openings ts = closings ts + r.groupCount
  closings_le : ∀ us, us <+: ts → closings us ≤ openings us

theorem hasRead_empty : Builder.empty.HasRead (.awaiting []) [] :=
  ⟨shows_empty, .awaiting .nil, rfl, by simp⟩

/-- One more token that the table of neighbours allows is read, unless it closes nothing. -/
theorem HasRead.step (h : b.HasRead r ts) (ht : Allows ts t) :
    (t.type = .rparen ∧ r.groupCount = 0 ∧ b.step t = .error (.atToken .strayParen t)) ∨
      ∃ b' r', r.step b.arena.nodes.size t = some r' ∧ b.step t = .ok b' ∧
        b'.HasRead r' (ts ++ [t]) := by
  by_cases hstray : t.type = .rparen ∧ r.groupCount = 0
  · exact .inl ⟨hstray.1, hstray.2, h.shows.step_eq_error hstray.2 hstray.1⟩
  · right
    have hopen : t.type = .rparen → 0 < r.groupCount := fun htype =>
      Nat.pos_of_ne_zero fun hcount => hstray ⟨htype, hcount⟩
    -- The table gives the token a place in the reading, and the builder follows.
    obtain ⟨r', hr', hcovers⟩ := h.covers.step b.arena.nodes.size ht hopen
    obtain ⟨b', hb', hshows⟩ := h.shows.step hr'
    have hcount := Reading.groupCount_step hr'
    have heq := h.openings_eq
    refine ⟨b', r', hr', hb', hshows, hcovers, ?_, ?_⟩
    · rw [openings_append, closings_append]
      omega
    · intro us hus
      rcases List.prefix_concat_iff.1 hus with rfl | hus
      · rw [openings_append, closings_append]
        omega
      · exact h.closings_le us hus

/-- All other tokens are read, up to the first closing parenthesis that closes nothing. -/
theorem HasRead.run (h : b.HasRead r ts) (hus : checkNeighbours (ts ++ us) = .ok ()) :
    (∃ t, IsFirstStray (ts ++ us) t ∧
      us.foldlM Builder.step b = .error (.atToken .strayParen t)) ∨
      ∃ b' r', us.foldlM Builder.step b = .ok b' ∧ b'.HasRead r' (ts ++ us) := by
  induction us generalizing b r ts with
  | nil => exact .inr ⟨b, r, rfl, by rwa [List.append_nil]⟩
  | cons t us ih =>
    rcases h.step (allows_of_checkNeighbours hus) with
      ⟨ht, hcount, herror⟩ | ⟨b', r', -, hb', h'⟩
    · -- Nothing is open before this token, and before it no parenthesis closed nothing.
      refine .inl ⟨t, ⟨ts, us, rfl, ht, ?_, h.closings_le⟩, ?_⟩
      · rw [h.openings_eq, hcount, Nat.add_zero]
      · rw [List.foldlM_cons, herror]
        rfl
    · have happend : ts ++ t :: us = ts ++ [t] ++ us := by simp
      rw [happend] at hus ⊢
      rw [List.foldlM_cons, hb']
      exact ih h' hus

end Builder

/-! ### The verdict -/

/-- The place behind the last token. -/
def lastStop (ts : List Token) : Nat :=
  (ts.getLast?.map Token.stop).getD 0

theorem parse_eq_of_foldlM_ok (hts : checkNeighbours ts = .ok ())
    (hfold : ts.foldlM Builder.step .empty = .ok b) :
    parse ts = if b.openParens = 0 then .ok b.arena
      else .error ⟨.unclosedParens b.openParens, .char (lastStop ts)⟩ := by
  rw [parse, hts, hfold]
  rfl

theorem parse_eq_of_foldlM_error {e : RuleError} (hts : checkNeighbours ts = .ok ())
    (hfold : ts.foldlM Builder.step .empty = .error e) : parse ts = .error e := by
  rw [parse, hts, hfold]
  rfl

/-- What becomes of a list of tokens that obeys the table of neighbours. -/
theorem parse_cases (hts : checkNeighbours ts = .ok ()) :
    (∃ t, IsFirstStray ts t ∧ parse ts = .error (.atToken .strayParen t)) ∨
      ∃ b r, b.HasRead r ts ∧ ts.foldlM Builder.step .empty = .ok b ∧
        parse ts = if r.groupCount = 0 then .ok b.arena
          else .error ⟨.unclosedParens r.groupCount, .char (lastStop ts)⟩ := by
  rcases Builder.hasRead_empty.run hts with ⟨t, hstray, hfold⟩ | ⟨b, r, hfold, hread⟩
  · exact .inl ⟨t, hstray, parse_eq_of_foldlM_error hts hfold⟩
  · refine .inr ⟨b, r, hread, hfold, ?_⟩
    rw [parse_eq_of_foldlM_ok hts hfold, hread.shows.openParens_eq]

theorem checkNeighbours_of_parse {a : Arena} (h : parse ts = .ok a) :
    checkNeighbours ts = .ok () := by
  cases hts : checkNeighbours ts with
  | ok u => rfl
  | error e => simp [parse, hts, bind, Except.bind] at h

/-- What is read from an accepted list is held below the root, without any parenthesis. -/
theorem holds_of_parse {a : Arena} (h : parse ts = .ok a) :
    ts = [] ∧ a = .empty ∨ ∃ x : NumberedTree, a.Holds [] x ∧ x.groupCount = 0 := by
  have hts := checkNeighbours_of_parse h
  rcases parse_cases hts with ⟨t, -, herror⟩ | ⟨b, r, hread, hfold, hparse⟩
  · cases h.symm.trans herror
  · have hok := h.symm.trans hparse
    split at hok
    case isFalse => cases hok
    case isTrue hcount =>
      obtain rfl := Except.ok.inj hok
      rcases hread.covers.eq_nil_or_holding (checkNeighbours_eq_ok_iff.1 hts).2.2 with
        rfl | ⟨s, x, rfl⟩
      · obtain rfl := Except.ok.inj hfold
        exact .inl ⟨rfl, rfl⟩
      · have hheld : b.arena.Holds s x := hread.shows.stored
        exact .inr ⟨s.plug x, hheld.plug, Spine.groupCount_plug.trans hcount⟩

/-- The accepted lists of tokens are the rules. -/
theorem exists_parse_eq_ok_iff : (∃ a, parse ts = .ok a) ↔ IsRule ts := by
  constructor
  · rintro ⟨a, ha⟩
    have hts := checkNeighbours_of_parse ha
    rcases parse_cases hts with ⟨t, -, herror⟩ | ⟨b, r, hread, -, hparse⟩
    · rw [herror] at ha
      cases ha
    · by_cases hcount : r.groupCount = 0
      · exact hread.covers.isRule (checkNeighbours_eq_ok_iff.1 hts).2.2 hcount
      · rw [hparse, if_neg hcount] at ha
        cases ha
  · intro hrule
    rcases parse_cases hrule.checkNeighbours_eq_ok with ⟨t, hstray, -⟩ | ⟨b, r, hread, -, hparse⟩
    · exact absurd hrule.balanced.closings_le hstray.not_closings_le
    · have hcount : r.groupCount = 0 := by
        have := hread.openings_eq
        have := hrule.balanced.openings_eq
        omega
      exact ⟨b.arena, by rw [hparse, if_pos hcount]⟩

/-- The errors of a list of tokens that obeys the table of neighbours. -/
theorem parse_eq_error_iff (hts : checkNeighbours ts = .ok ()) {e : RuleError} :
    parse ts = .error e ↔
      (∃ t, IsFirstStray ts t ∧ e = .atToken .strayParen t) ∨
        ((∀ t, ¬ IsFirstStray ts t) ∧ ¬ IsRule ts ∧
          ∃ last count, ts.getLast? = some last ∧ openings ts = closings ts + count ∧
            e = ⟨.unclosedParens count, .char last.stop⟩) := by
  rcases parse_cases hts with ⟨t, hstray, hparse⟩ | ⟨b, r, hread, -, hparse⟩
  · rw [hparse]
    constructor
    · rintro ⟨⟩
      exact .inl ⟨t, hstray, rfl⟩
    · rintro (⟨u, hu, rfl⟩ | ⟨hnone, -⟩)
      · rw [hstray.unique hu]
      · exact absurd hstray (hnone t)
  · -- All tokens are read. What decides is whether a parenthesis is still open.
    have hnone : ∀ t, ¬ IsFirstStray ts t := fun t ht => ht.not_closings_le hread.closings_le
    by_cases hcount : r.groupCount = 0
    · rw [if_pos hcount] at hparse
      have hrule : IsRule ts := exists_parse_eq_ok_iff.1 ⟨_, hparse⟩
      simp [hparse, hnone, hrule]
    · rw [if_neg hcount] at hparse
      have hrule : ¬ IsRule ts := by
        intro hrule
        obtain ⟨a, ha⟩ := exists_parse_eq_ok_iff.2 hrule
        cases ha.symm.trans hparse
      obtain ⟨last, hlast⟩ : ∃ last, ts.getLast? = some last := by
        apply Option.ne_none_iff_exists'.1
        intro hnil
        obtain rfl := List.getLast?_eq_none_iff.1 hnil
        exact hrule .empty
      have hopen := hread.openings_eq
      rw [hparse, lastStop, hlast]
      constructor
      · rintro ⟨⟩
        exact .inr ⟨hnone, hrule, last, _, rfl, hopen, rfl⟩
      · rintro (⟨t, ht, -⟩ | ⟨-, -, last', count, hlast', hcount', rfl⟩)
        · exact absurd ht (hnone t)
        · obtain rfl := Option.some.inj hlast'
          obtain rfl : count = r.groupCount := by omega
          rfl

/-- **The verdict.** A list of tokens has a tree exactly if it is a rule. Otherwise the error is
that of the table of neighbours if there is one, then that of the first closing parenthesis that
closes nothing, and at last that of the parentheses left open, behind the last token. -/
theorem parse_verdict (ts : List Token) :
    ((∃ a, parse ts = .ok a) ↔ IsRule ts) ∧
      (∀ e, parse ts = .error e ↔
        checkNeighbours ts = .error e ∨
          (checkNeighbours ts = .ok () ∧ ∃ t, IsFirstStray ts t ∧ e = .atToken .strayParen t) ∨
          (checkNeighbours ts = .ok () ∧ (∀ t, ¬ IsFirstStray ts t) ∧ ¬ IsRule ts ∧
            ∃ last count, ts.getLast? = some last ∧ openings ts = closings ts + count ∧
              e = ⟨.unclosedParens count, .char last.stop⟩)) ∧
      ∀ t, (RuleError.atToken .strayParen t).message = "Illegal ')' placement." := by
  refine ⟨exists_parse_eq_ok_iff, ?_, fun _ => rfl⟩
  intro e
  cases hts : checkNeighbours ts with
  | error e' =>
    have hparse : parse ts = .error e' := by
      rw [parse, hts]
      rfl
    simp [hparse]
  | ok u =>
    rw [parse_eq_error_iff hts]
    simp

end VersionRules
