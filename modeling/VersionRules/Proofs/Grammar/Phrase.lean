import Mathlib.Data.List.Chain
import VersionRules.Tree.Parser

/-!
# Phrases of the rule language

The rules of the language in the form of a grammar, which knows neither trees nor priorities: an
expression is a sequence of terms with connectives or commas between them, and a term is a qualifier
term or an expression in parentheses. A rule is empty, or an order alone, or an expression that may
be followed by `SORT_BY` and an order.

## Main definitions

* `Phrase` — the terms and the expressions
* `IsRule` — the rules
* `openings`, `closings`, `Balanced` — how many parentheses are opened and closed

## Main results

* `checkNeighbours_eq_ok_iff` — the table of neighbours, said of all adjacent tokens at once
* `IsRule.checkNeighbours_eq_ok` — every rule obeys the table of neighbours
* `IsRule.balanced` — the parentheses of every rule are balanced
-/

namespace VersionRules

variable {t op l r : Token} {ts us vs : List Token}

/-! ### The table of neighbours -/

/-- One token can stand before another. -/
def Token.Precedes (t u : Token) : Prop :=
  t.type.canPrecede (some u.type)

/-- A rule can end with a token. -/
def Token.CanEnd (t : Token) : Prop :=
  t.type.canPrecede none

theorem checkFollowers_eq_ok_iff :
    checkFollowers ts = .ok () ↔ ts.IsChain Token.Precedes ∧ ∀ t ∈ ts.getLast?, t.CanEnd := by
  induction ts with
  | nil => simp [checkFollowers]
  | cons t ts ih =>
    cases ts with
    | nil =>
      by_cases h : t.type.canPrecede none <;> simp [checkFollowers, Token.CanEnd, h]
    | cons u ts =>
      rw [List.isChain_cons_cons, List.getLast?_cons_cons, and_assoc, ← ih]
      by_cases h : t.type.canPrecede (some u.type)
      · simp [checkFollowers, Token.Precedes, h]
      · simp [checkFollowers, Token.Precedes, h]

theorem checkNeighbours_eq_ok_iff :
    checkNeighbours ts = .ok () ↔
      (∀ t ∈ ts.head?, t.type.canStart) ∧ ts.IsChain Token.Precedes ∧
        ∀ t ∈ ts.getLast?, t.CanEnd := by
  rw [← checkFollowers_eq_ok_iff]
  cases ts with
  | nil => simp [checkNeighbours, checkFollowers]
  | cons t ts => by_cases h : t.type.canStart <;> simp [checkNeighbours, h]

/-! ### Phrases -/

/-- Connectives and commas join terms. -/
def Token.Joins (t : Token) : Prop :=
  t.type = .logic ∨ t.type = .comma

/-- The kinds of phrases. -/
inductive PhraseKind
  | term
  | expr

/-- The lists of tokens that are terms or expressions. -/
inductive Phrase : PhraseKind → List Token → Prop
  | qualifier {t : Token} (ht : t.type = .qualifier) : Phrase .term [t]
  | parens {l r : Token} {ts : List Token} (hl : l.type = .lparen) (hts : Phrase .expr ts)
      (hr : r.type = .rparen) : Phrase .term (l :: (ts ++ [r]))
  | single {ts : List Token} (hts : Phrase .term ts) : Phrase .expr ts
  | join {us vs : List Token} {op : Token} (hus : Phrase .term us) (hop : op.Joins)
      (hvs : Phrase .expr vs) : Phrase .expr (us ++ op :: vs)

/-- The lists of tokens that are rules. -/
inductive IsRule : List Token → Prop
  | empty : IsRule []
  | order {o : Token} (ho : o.type = .order) : IsRule [o]
  | condition {ts : List Token} (hts : Phrase .expr ts) : IsRule ts
  | sorted {ts : List Token} {s o : Token} (hts : Phrase .expr ts) (hs : s.type = .sortBy)
      (ho : o.type = .order) : IsRule (ts ++ [s, o])

variable {k : PhraseKind}

/-- Two expressions with an operator between them are an expression. -/
theorem Phrase.join_expr (hus : Phrase .expr us) (hop : op.Joins) (hvs : Phrase .expr vs) :
    Phrase .expr (us ++ op :: vs) := by
  generalize hk : PhraseKind.expr = k at hus
  induction hus with
  | qualifier | parens => cases hk
  | single hts => exact .join hts hop hvs
  | join hts hop' _ _ ih =>
    rw [List.append_assoc]
    exact .join hts hop' (ih rfl)

/-- A phrase begins with a term or an open parenthesis. -/
theorem Phrase.head?_type (h : Phrase k ts) :
    ∃ t, ts.head? = some t ∧ (t.type = .qualifier ∨ t.type = .lparen) := by
  induction h with
  | qualifier ht => exact ⟨_, rfl, .inl ht⟩
  | parens hl _ _ _ => exact ⟨_, rfl, .inr hl⟩
  | single _ ih => exact ih
  | join _ _ _ ih _ =>
    obtain ⟨t, ht, htype⟩ := ih
    exact ⟨t, by rw [List.head?_append, ht, Option.some_or], htype⟩

/-- A phrase ends with a term or a closing parenthesis. -/
theorem Phrase.getLast?_type (h : Phrase k ts) :
    ∃ t, ts.getLast? = some t ∧ (t.type = .qualifier ∨ t.type = .rparen) := by
  induction h with
  | qualifier ht => exact ⟨_, rfl, .inl ht⟩
  | parens _ _ hr _ =>
    exact ⟨_, by rw [← List.cons_append, List.getLast?_concat], .inr hr⟩
  | single _ ih => exact ih
  | join _ _ _ _ ih =>
    obtain ⟨t, ht, htype⟩ := ih
    refine ⟨t, ?_, htype⟩
    rw [List.getLast?_append, List.getLast?_cons, ht]
    rfl

/-! ### Phrases obey the table -/

theorem Token.CanEnd.of_type (h : t.type = .qualifier ∨ t.type = .rparen) : t.CanEnd := by
  rcases h with h | h <;> simp [CanEnd, h, TokenType.canPrecede]

theorem Token.Precedes.of_joins (ht : t.type = .qualifier ∨ t.type = .rparen) (hop : op.Joins) :
    t.Precedes op := by
  rcases ht with ht | ht <;> rcases hop with hop | hop <;>
    simp [Precedes, ht, hop, TokenType.canPrecede]

theorem Token.Joins.precedes (hop : op.Joins) (ht : t.type = .qualifier ∨ t.type = .lparen) :
    op.Precedes t := by
  rcases ht with ht | ht <;> rcases hop with hop | hop <;>
    simp [Precedes, ht, hop, TokenType.canPrecede]

/-- Two lists that obey the table do so together if the tokens where they meet do. -/
theorem isChain_append_of_precedes {first last : Token} (hts : ts.IsChain Token.Precedes)
    (hus : us.IsChain Token.Precedes) (hlast : ts.getLast? = some last)
    (hfirst : us.head? = some first) (h : last.Precedes first) :
    (ts ++ us).IsChain Token.Precedes := by
  refine List.isChain_append.2 ⟨hts, hus, ?_⟩
  rw [hlast, hfirst]
  rintro t ⟨⟩ u ⟨⟩
  exact h

theorem Phrase.isChain (h : Phrase k ts) : ts.IsChain Token.Precedes := by
  induction h with
  | qualifier => exact .singleton _
  | @parens l r ts hl hts hr ih =>
    obtain ⟨first, hfirst, htype⟩ := hts.head?_type
    obtain ⟨last, hlast, htype'⟩ := hts.getLast?_type
    have hopen : l.Precedes first := by
      rcases htype with h | h <;> simp [Token.Precedes, h, hl, TokenType.canPrecede]
    have hclose : last.Precedes r := by
      rcases htype' with h | h <;> simp [Token.Precedes, h, hr, TokenType.canPrecede]
    have htail := isChain_append_of_precedes ih (.singleton r) hlast rfl hclose
    apply isChain_append_of_precedes (.singleton l) htail rfl ?_ hopen
    rw [List.head?_append, hfirst, Option.some_or]
  | single _ ih => exact ih
  | join hus hop hvs ihus ihvs =>
    obtain ⟨first, hfirst, htype⟩ := hvs.head?_type
    obtain ⟨last, hlast, htype'⟩ := hus.getLast?_type
    have htail := isChain_append_of_precedes (.singleton _) ihvs rfl hfirst (hop.precedes htype)
    exact isChain_append_of_precedes ihus htail hlast rfl (.of_joins htype' hop)

/-- Every rule obeys the table of neighbours. -/
theorem IsRule.checkNeighbours_eq_ok (h : IsRule ts) : checkNeighbours ts = .ok () := by
  rw [checkNeighbours_eq_ok_iff]
  cases h with
  | empty => simp
  | order ho => simp [ho, Token.CanEnd, TokenType.canStart, TokenType.canPrecede]
  | condition hts =>
    obtain ⟨first, hfirst, htype⟩ := hts.head?_type
    obtain ⟨last, hlast, htype'⟩ := hts.getLast?_type
    refine ⟨?_, hts.isChain, ?_⟩
    · rw [hfirst]
      rintro t ⟨⟩
      rcases htype with h | h <;> simp [h, TokenType.canStart]
    · rw [hlast]
      rintro t ⟨⟩
      exact .of_type htype'
  | @sorted ts s o hts hs ho =>
    obtain ⟨first, hfirst, htype⟩ := hts.head?_type
    obtain ⟨last, hlast, htype'⟩ := hts.getLast?_type
    refine ⟨?_, ?_, ?_⟩
    · rw [List.head?_append, hfirst, Option.some_or]
      rintro t ⟨⟩
      rcases htype with h | h <;> simp [h, TokenType.canStart]
    · apply isChain_append_of_precedes hts.isChain ?_ hlast rfl
      · rcases htype' with h | h <;> simp [Token.Precedes, h, hs, TokenType.canPrecede]
      · simp [Token.Precedes, hs, ho, TokenType.canPrecede]
    · rintro t ht
      rw [List.getLast?_append] at ht
      obtain rfl : o = t := Option.some.inj ht
      simp [Token.CanEnd, ho, TokenType.canPrecede]

/-! ### Parentheses -/

/-- How many parentheses are opened. -/
def openings (ts : List Token) : Nat :=
  ts.countP fun t => t.type = .lparen

/-- How many parentheses are closed. -/
def closings (ts : List Token) : Nat :=
  ts.countP fun t => t.type = .rparen

@[simp]
theorem openings_append : openings (ts ++ us) = openings ts + openings us :=
  List.countP_append

@[simp]
theorem closings_append : closings (ts ++ us) = closings ts + closings us :=
  List.countP_append

theorem openings_cons : openings (t :: ts) = openings ts + if t.type = .lparen then 1 else 0 := by
  simp [openings, List.countP_cons]

theorem closings_cons : closings (t :: ts) = closings ts + if t.type = .rparen then 1 else 0 := by
  simp [closings, List.countP_cons]

@[simp]
theorem openings_nil : openings [] = 0 :=
  rfl

@[simp]
theorem closings_nil : closings [] = 0 :=
  rfl

/-- No parenthesis is closed before it is opened, and all are closed in the end. -/
structure Balanced (ts : List Token) : Prop where
  closings_le : ∀ us, us <+: ts → closings us ≤ openings us
  openings_eq : openings ts = closings ts

namespace Balanced

theorem nil : Balanced [] :=
  ⟨by simp, rfl⟩

/-- A token that is no parenthesis changes nothing. -/
theorem cons (ht : t.type ≠ .lparen) (ht' : t.type ≠ .rparen) (h : Balanced ts) :
    Balanced (t :: ts) := by
  constructor
  · intro us hus
    rcases List.prefix_cons_iff.1 hus with rfl | ⟨vs, rfl, hvs⟩
    · exact Nat.le_refl _
    · simpa [openings_cons, closings_cons, ht, ht'] using h.closings_le vs hvs
  · simpa [openings_cons, closings_cons, ht, ht'] using h.openings_eq

theorem append (hts : Balanced ts) (hus : Balanced us) : Balanced (ts ++ us) := by
  constructor
  · rintro vs ⟨ws, hws⟩
    -- A prefix ends within the first list, or is the first list and a prefix of the second.
    rcases List.append_eq_append_iff.1 hws with ⟨xs, rfl, -⟩ | ⟨xs, rfl, rfl⟩
    · exact hts.closings_le vs (List.prefix_append _ _)
    · have := hus.closings_le xs (List.prefix_append _ _)
      have := hts.openings_eq
      simp only [openings_append, closings_append]
      omega
  · have := hts.openings_eq
    have := hus.openings_eq
    simp only [openings_append, closings_append]
    omega

/-- A balanced list in parentheses is balanced. -/
theorem parens (hl : l.type = .lparen) (h : Balanced ts) (hr : r.type = .rparen) :
    Balanced (l :: (ts ++ [r])) := by
  have hlr : l.type ≠ .rparen := by simp [hl]
  have heq := h.openings_eq
  constructor
  · intro us hus
    rcases List.prefix_cons_iff.1 hus with rfl | ⟨vs, rfl, hvs⟩
    · exact Nat.le_refl _
    · -- The closing parenthesis is only in the whole list, and the opening one counts before it.
      rcases List.prefix_concat_iff.1 hvs with rfl | hvs
      · simp [openings_cons, closings_cons, hl, hr, heq]
      · have := h.closings_le vs hvs
        simp only [openings_cons, closings_cons, if_pos hl, if_neg hlr]
        omega
  · simp [openings_cons, closings_cons, hl, hr, heq]

end Balanced

theorem Phrase.balanced (h : Phrase k ts) : Balanced ts := by
  induction h with
  | qualifier ht => exact Balanced.nil.cons (by simp [ht]) (by simp [ht])
  | parens hl _ hr ih => exact ih.parens hl hr
  | single _ ih => exact ih
  | join _ hop _ ihus ihvs =>
    refine ihus.append (ihvs.cons ?_ ?_)
    · rcases hop with hop | hop <;> simp [hop]
    · rcases hop with hop | hop <;> simp [hop]

/-- The parentheses of a rule are balanced. -/
theorem IsRule.balanced (h : IsRule ts) : Balanced ts := by
  cases h with
  | empty => exact .nil
  | order ho => exact Balanced.nil.cons (by simp [ho]) (by simp [ho])
  | condition hts => exact hts.balanced
  | sorted hts hs ho =>
    exact hts.balanced.append
      ((Balanced.nil.cons (by simp [ho]) (by simp [ho])).cons (by simp [hs]) (by simp [hs]))

end VersionRules
