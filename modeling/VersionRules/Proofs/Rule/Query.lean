import VersionRules.Proofs.Rule.Meaning

/-!
# Queries are lists of terms

A query is qualifier terms with single commas between them, one term at least. It is read by the
same pass as any other rule, which nests its commas to the right; but since a comma is an "or", the
filter keeps a candidate exactly if one of the terms does, however many there are and in whatever
order. A text that is split into other tokens than these is no query. Only a filter without a query
has no tokens, and it tests as its default says.

## Main definitions

* `ListsTerms` — tokens that are terms with single commas between them, and the terms

## Main results

* `Phrase.exists_listsTerms` — a phrase of qualifiers and commas is such a list
* `ListsTerms.reads` — in the infix reading, a list of terms asks for one of them
* `Filter.exists_listsTerms`, `ListsTerms.exists_filter` — filters are read from lists of terms
* `filter_tests_terms` — which queries are accepted, and what they keep
-/

namespace VersionRules

/-- The tokens are qualifier terms with single commas between them, one term at least. -/
inductive ListsTerms : List Token → List (Qualifier × List String) → Prop
  | single {t : Token} {q : Qualifier} {words : List String} (ht : t.kind = .qualifier q words) :
      ListsTerms [t] [(q, words)]
  | cons {t comma : Token} {q : Qualifier} {words : List String} {ts : List Token}
      {terms : List (Qualifier × List String)} (ht : t.kind = .qualifier q words)
      (hcomma : comma.kind = .comma) (hts : ListsTerms ts terms) :
      ListsTerms (t :: comma :: ts) ((q, words) :: terms)

variable {k : PhraseKind} {ts us vs : List Token} {op : Token} {query : String} {f : Filter}
  {terms terms' : List (Qualifier × List String)}

namespace ListsTerms

theorem ne_nil (h : ListsTerms ts terms) : ts ≠ [] := by
  cases h <;> exact List.cons_ne_nil _ _

/-- Two lists with a comma between them are one. -/
theorem append (hus : ListsTerms us terms) (hop : op.kind = .comma) (hvs : ListsTerms vs terms') :
    ListsTerms (us ++ op :: vs) (terms ++ terms') := by
  induction hus with
  | single ht => exact .cons ht hop hvs
  | cons ht hcomma _ ih => exact .cons ht hcomma ih

/-- A list of terms asks for one of them. -/
theorem reads (h : ListsTerms ts terms) :
    Reads .disj ts fun v => terms.any fun term => v.has term.1 term.2 := by
  induction h with
  | @single t q words ht =>
    have hone : (fun v : Candidate => [(q, words)].any fun term => v.has term.1 term.2) =
        fun v => v.has q words := by
      funext v
      rw [List.any_cons, List.any_nil, Bool.or_false]
    rw [hone]
    exact .conj (.atom (.term ht))
  | cons ht hcomma _ ih => exact .or (.conj (.atom (.term ht))) (.inr hcomma) ih

end ListsTerms

/-- A phrase of qualifiers and commas has no parentheses, so it is a list of terms. -/
theorem Phrase.exists_listsTerms (h : Phrase k ts)
    (htypes : ∀ t ∈ ts, t.type = .qualifier ∨ t.type = .comma) : ∃ terms, ListsTerms ts terms := by
  induction h with
  | qualifier ht =>
    obtain ⟨q, words, hkind⟩ := exists_qualifier_of_type ht
    exact ⟨_, .single hkind⟩
  | parens hl _ _ _ =>
    have hfirst := htypes _ List.mem_cons_self
    rw [hl] at hfirst
    rcases hfirst with hfirst | hfirst <;> cases hfirst
  | single _ ih => exact ih htypes
  | @join us vs op _ hop _ ihus ihvs =>
    obtain ⟨hus, hrest⟩ := List.forall_mem_append.1 htypes
    obtain ⟨hcomma, hvs⟩ := List.forall_mem_cons.1 hrest
    obtain ⟨terms, hterms⟩ := ihus hus
    obtain ⟨terms', hterms'⟩ := ihvs hvs
    have hlogic (c : Connective) : op.kind ≠ .logic c := by
      intro hkind
      rw [Token.type, hkind] at hcomma
      rcases hcomma with hcomma | hcomma <;> cases hcomma
    rcases hop.kind_cases with hkind | hkind | hkind
    · exact absurd hkind (hlogic .and)
    · exact absurd hkind (hlogic .or)
    · exact ⟨terms ++ terms', hterms.append hkind hterms'⟩

namespace Filter

/-- The tokens of a query are qualifiers and commas. -/
theorem type_of_mem_tokens (h : grammar.tokens query = .ok ts) :
    ∀ t ∈ ts, t.type = .qualifier ∨ t.type = .comma := by
  intro t ht
  have hallows := Grammar.allows_of_mem_tokens h t ht
  revert hallows
  cases t.type <;> decide

/-- A filter is read from a list of terms, and keeps the tokens of the query. -/
theorem exists_listsTerms (h : ofQuery (some query) = .ok f) :
    grammar.tokens query = .ok f.tokens ∧ ∃ terms, ListsTerms f.tokens terms := by
  obtain ⟨ts, htokens, h⟩ := bind_eq_ok_iff.1 h
  obtain ⟨a, ha, h⟩ := bind_eq_ok_iff.1 h
  obtain ⟨c, hc, rfl⟩ := map_eq_ok_iff.1 h
  refine ⟨htokens, ?_⟩
  have htypes := type_of_mem_tokens htokens
  have hderives := derivesRule_of_parse ha
  obtain ⟨hne, horder⟩ := hderives.exists_condition_iff.1 ⟨c, hc⟩
  -- Of the four forms of a rule, the empty one has no condition, and two have an order.
  generalize a.expression = tree at hderives
  cases hderives with
  | empty => exact absurd rfl hne
  | order ho => exact absurd ho (horder _ List.mem_cons_self)
  | condition hts => exact hts.phrase.exists_listsTerms htypes
  | sorted _ _ ho => exact absurd ho (horder _ (by simp))

end Filter

/-- A text that is split into a list of terms is a query, and its filter asks for one of them. -/
theorem ListsTerms.exists_filter (h : ListsTerms ts terms)
    (htokens : Filter.grammar.tokens query = .ok ts) :
    ∃ f, Filter.ofQuery (some query) = .ok f ∧ f.tokens = ts ∧
      f.test = fun v => terms.any fun term => v.has term.1 term.2 := by
  obtain ⟨tree, c, hderives, hc, hholds⟩ := h.reads.standsFor
  obtain ⟨a, ha, rfl⟩ := (DerivesRule.condition hderives).exists_parse
  refine ⟨⟨ts, some a, c.holds⟩, ?_, rfl, hholds⟩
  apply bind_eq_ok_iff.2
  refine ⟨ts, htokens, bind_eq_ok_iff.2 ⟨a, ha, ?_⟩⟩
  exact map_eq_ok_iff.2 ⟨c, hc, rfl⟩

/-- **A filter asks for one of its terms.** A query is accepted exactly if it is split into
qualifier terms with single commas between them. Its filter then keeps the candidates that have the
value of one of the terms, whatever the default is. A filter counts as empty exactly if there was no
query, and tests as its default then; no query is accepted with every default. -/
theorem filter_tests_terms (default : Candidate → Bool) :
    (∀ query, (∃ f, Filter.ofQuery (some query) = .ok f) ↔
        ∃ ts terms, Filter.grammar.tokens query = .ok ts ∧ ListsTerms ts terms) ∧
      (∀ query f ts terms, Filter.ofQuery (some query) = .ok f →
        Filter.grammar.tokens query = .ok ts → ListsTerms ts terms →
          f.isEmpty = false ∧ ∀ v, f.test v ↔ ∃ term ∈ terms, v.has term.1 term.2) ∧
      (∀ query, Filter.ofQueryOr default (some query) = Filter.ofQuery (some query)) ∧
      (∃ f, Filter.ofQueryOr default none = .ok f) ∧
      ∀ query? f, Filter.ofQueryOr default query? = .ok f →
        (f.isEmpty ↔ query? = none) ∧ (query? = none → f.test = default) := by
  refine ⟨?_, ?_, fun _ => rfl, ⟨_, rfl⟩, ?_⟩
  · intro query
    constructor
    · rintro ⟨f, hf⟩
      obtain ⟨htokens, terms, hterms⟩ := Filter.exists_listsTerms hf
      exact ⟨f.tokens, terms, htokens, hterms⟩
    · rintro ⟨ts, terms, htokens, hterms⟩
      obtain ⟨f, hf, -⟩ := hterms.exists_filter htokens
      exact ⟨f, hf⟩
  · intro query f ts terms hf htokens hterms
    obtain ⟨f', hf', hts, htest⟩ := hterms.exists_filter htokens
    obtain rfl := Except.ok.inj (hf.symm.trans hf')
    constructor
    · rw [Filter.isEmpty, hts, List.isEmpty_eq_false_iff]
      exact hterms.ne_nil
    · intro v
      rw [htest, List.any_eq_true]
  · intro query? f hf
    cases query? with
    | none =>
      obtain rfl := Except.ok.inj hf
      exact ⟨iff_of_true rfl rfl, fun _ => rfl⟩
    | some query =>
      have hquery : Filter.ofQuery (some query) = .ok f := hf
      obtain ⟨-, terms, hterms⟩ := Filter.exists_listsTerms hquery
      refine ⟨iff_of_false ?_ nofun, nofun⟩
      rw [Filter.isEmpty, List.isEmpty_iff]
      exact hterms.ne_nil

/-- A query of two terms, with white space inside a quoted value and around the comma. -/
theorem filter_tests_terms_quoted :
    ∃ f, Filter.ofQueryOr (fun _ => false) (some "BUILD:1 , group-version:'a b'") = .ok f ∧
      f.isEmpty = false ∧ f.test ((Candidate.ofVersion "1.0").add .groupVersion ["a b"]) ∧
      ¬ f.test ((Candidate.ofVersion "1.0").add .groupVersion ["a"]) := by
  have htokens : Filter.grammar.tokens "BUILD:1 , group-version:'a b'" = .ok
      [⟨0, 7, .qualifier .build ["1"]⟩, ⟨8, 9, .comma⟩,
        ⟨10, 29, .qualifier .groupVersion ["a b"]⟩] := by
    decide +kernel
  have hlists : ListsTerms
      [⟨0, 7, .qualifier .build ["1"]⟩, ⟨8, 9, .comma⟩, ⟨10, 29, .qualifier .groupVersion ["a b"]⟩]
      [(.build, ["1"]), (.groupVersion, ["a b"])] :=
    .cons rfl rfl (.single rfl)
  obtain ⟨haccepted, htests, -⟩ := filter_tests_terms fun _ => false
  obtain ⟨f, hf⟩ := (haccepted _).2 ⟨_, _, htokens, hlists⟩
  obtain ⟨hfull, htest⟩ := htests _ f _ _ hf htokens hlists
  refine ⟨f, hf, hfull, (htest _).2 ?_, ?_⟩
  · exact ⟨(.groupVersion, ["a b"]), by decide, by decide +kernel⟩
  · rw [htest]
    decide +kernel

end VersionRules
