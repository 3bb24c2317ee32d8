import VersionRules.Proofs.Rule.Meaning
import VersionRules.Proofs.Rule.Ranks

/-!
# What the verdict on a candidate depends on

A rule asks a candidate for the values that its terms name, and for nothing else. So two candidates
that answer these terms alike are alike to the rule: it does not matter which other values they are
tagged with, in what order their values were recorded, and how often. Filters do not even look at
the version string, while rankings leave it to the order of version strings.

## Main definitions

* `Named`, `Grammar.Names` — the terms in a list of tokens, and those in a rule
* `Candidate.AgreeOn` — two candidates that answer some terms alike
* `Candidate.tagged` — a candidate with further values, one after the other

## Main results

* `Reads.congr`, `Ranks.congr` — a condition and a rule look at their terms only
* `Ranking.compare_congr`, `Filter.test_congr` — and so do rankings and filters
* `Candidate.has_tagged_iff` — what is recorded does not depend on order and repetition
* `unnamed_tags_ignored` — tags that no rule names change no verdict
-/

namespace VersionRules

/-- The term for `words` of `q` is one of the tokens. -/
def Named (ts : List Token) (q : Qualifier) (words : List String) : Prop :=
  ∃ t ∈ ts, t.kind = .qualifier q words

/-- The term for `words` of `q` stands in a rule. -/
def Grammar.Names (g : Grammar) (rule : String) (q : Qualifier) (words : List String) : Prop :=
  ∃ ts, g.tokens rule = .ok ts ∧ Named ts q words

/-- Two candidates answer all terms of some kind alike. -/
def Candidate.AgreeOn (asked : Qualifier → List String → Prop) (v w : Candidate) : Prop :=
  ∀ q words, asked q words → v.has q words = w.has q words

/-- A candidate with further values, recorded one after the other. -/
def Candidate.tagged (v : Candidate) (tags : List (Qualifier × List String)) : Candidate :=
  tags.foldl (fun v tag => v.add tag.1 tag.2) v

variable {k : Stratum} {ts us : List Token} {t : Token} {f : Candidate → Bool}
  {asked asked' : Qualifier → List String → Prop} {v v' w w' : Candidate} {q : Qualifier}
  {words : List String} {order : StringOrder} {p : Preference} {ps : List Preference}
  {rule : String} {rules : List String} {rank : Rank} {r : Ranking}
  {tags tags' : List (Qualifier × List String)}

theorem Named.of_subset (h : Named us q words) (hsub : us ⊆ ts) : Named ts q words := by
  obtain ⟨t, ht, hkind⟩ := h
  exact ⟨t, hsub ht, hkind⟩

theorem Grammar.names_iff {g : Grammar} (h : g.tokens rule = .ok ts) :
    g.Names rule q words ↔ Named ts q words := by
  constructor
  · rintro ⟨us, hus, hnamed⟩
    obtain rfl := Except.ok.inj (h.symm.trans hus)
    exact hnamed
  · intro hnamed
    exact ⟨ts, h, hnamed⟩

namespace Candidate

theorem AgreeOn.refl (v : Candidate) : v.AgreeOn asked v :=
  fun _ _ _ => rfl

theorem AgreeOn.mono (h : v.AgreeOn asked w) (hasked : ∀ q words, asked' q words → asked q words) :
    v.AgreeOn asked' w :=
  fun q words hq => h q words (hasked q words hq)

theorem AgreeOn.of_subset (h : v.AgreeOn (Named ts) w) (hsub : us ⊆ ts) :
    v.AgreeOn (Named us) w :=
  h.mono fun _ _ hq => hq.of_subset hsub

/-- Candidates that differ only in values that are not asked for agree. -/
theorem agreeOn_of_unnamed
    (h : ∀ q value, (value ∈ v.values q ↔ value ∈ w.values q) ∨
      ∀ words, asked q words → ¬ q.sameValue value words) : v.AgreeOn asked w := by
  intro q words hq
  rw [has, has, Bool.eq_iff_iff, List.any_eq_true, List.any_eq_true]
  -- A recorded value that answers the term is one that the term names.
  have hmem {value : List String} (hsame : q.sameValue value words) :
      value ∈ v.values q ↔ value ∈ w.values q :=
    (h q value).resolve_right fun hno => hno words hq hsame
  constructor
  · rintro ⟨value, hvalue, hsame⟩
    exact ⟨value, (hmem hsame).1 hvalue, hsame⟩
  · rintro ⟨value, hvalue, hsame⟩
    exact ⟨value, (hmem hsame).2 hvalue, hsame⟩

/-! ### Values recorded one after the other -/

@[simp]
theorem version_tagged (v : Candidate) (tags : List (Qualifier × List String)) :
    (v.tagged tags).version = v.version := by
  induction tags generalizing v with
  | nil => rfl
  | cons tag tags ih => exact ih (v.add tag.1 tag.2)

theorem has_add_iff {value : List String} : (v.add q value).has q' words ↔
    v.has q' words ∨ q' = q ∧ q'.sameValue value words := by
  rw [has, has, values_add]
  split
  · next hq => simp [hq]
  · next hq => simp [hq]

/-- A candidate has the values that it had, and those that were recorded since. -/
theorem has_tagged_iff : (v.tagged tags).has q words ↔
    v.has q words ∨ ∃ tag ∈ tags, tag.1 = q ∧ q.sameValue tag.2 words := by
  induction tags generalizing v with
  | nil => simp [tagged]
  | cons tag tags ih =>
    rw [show v.tagged (tag :: tags) = (v.add tag.1 tag.2).tagged tags from rfl, ih, has_add_iff,
      List.exists_mem_cons_iff, or_assoc, eq_comm (a := q)]

/-- The order in which values are recorded does not matter, and neither does recording one of them
again. -/
theorem agreeOn_tagged (h : ∀ tag, tag ∈ tags ↔ tag ∈ tags') (v : Candidate) :
    (v.tagged tags).AgreeOn asked (v.tagged tags') := by
  intro q words _
  rw [Bool.eq_iff_iff, has_tagged_iff, has_tagged_iff]
  simp only [h]

end Candidate

/-! ### Rules -/

/-- A condition looks at its terms only. -/
theorem Reads.congr (h : Reads k ts f) (hv : v.AgreeOn (Named ts) w) : f v = f w := by
  induction h with
  | @term t q words ht => exact hv q words ⟨t, List.mem_singleton_self t, ht⟩
  | parens hl hts hr ih =>
    exact ih (hv.of_subset fun t ht => List.mem_cons_of_mem _ (List.mem_append_left _ ht))
  | atom hts ih | conj hts ih => exact ih hv
  | and hus hop hvs ihus ihvs =>
    have hleft := ihus (hv.of_subset (List.subset_append_left _ _))
    have hright :=
      ihvs (hv.of_subset fun t ht => List.mem_append_right _ (List.mem_cons_of_mem _ ht))
    exact congrArg₂ Bool.and hleft hright
  | or hus hop hvs ihus ihvs =>
    have hleft := ihus (hv.of_subset (List.subset_append_left _ _))
    have hright :=
      ihvs (hv.of_subset fun t ht => List.mem_append_right _ (List.mem_cons_of_mem _ ht))
    exact congrArg₂ Bool.or hleft hright

theorem verdict_congr {c : Candidate → Bool} {tie : Candidate → Candidate → Ordering}
    (hv : c v = c v') (hw : c w = c w') (htie : tie v w = tie v' w') :
    verdict c tie v w = verdict c tie v' w' := by
  rw [verdict, verdict, hv, hw, htie]

/-- A rule looks at its terms and at the version strings only. -/
theorem Ranks.congr (h : Ranks order ts p) (hv : v.AgreeOn (Named ts) v')
    (hw : w.AgreeOn (Named ts) w') (hversion : v.version = v'.version)
    (hversion' : w.version = w'.version) : p v w = p v' w' := by
  have htie : order v.version w.version = order v'.version w'.version := by
    rw [hversion, hversion']
  cases h with
  | order ho => exact htie
  | condition hts => exact verdict_congr (hts.congr hv) (hts.congr hw) rfl
  | sorted hts hs ho =>
    exact verdict_congr (hts.congr (hv.of_subset (List.subset_append_left _ _)))
      (hts.congr (hw.of_subset (List.subset_append_left _ _))) htie

/-- A rule prefers no candidate to itself, if the order of version strings does not. -/
theorem Ranks.self (h : Ranks order ts p) (horder : ∀ s, order s s = .eq) (v : Candidate) :
    p v v = .eq := by
  cases h with
  | order ho => exact horder v.version
  | @condition _ c hts =>
    rw [verdict]
    cases c v <;> rfl
  | @sorted _ _ _ c hts hs ho =>
    rw [verdict]
    cases c v
    · rfl
    · exact horder v.version

/-- The condition of a rule without an order is the reading of its tokens. -/
theorem DerivesRule.reads_of_condition {tree : Tree} {c : Condition} (h : DerivesRule ts tree)
    (hc : tree.condition = .ok c) : Reads .disj ts c.holds := by
  cases h with
  | empty => cases hc
  | order ho =>
    rw [Tree.condition, kind_of_type_order ho] at hc
    cases hc
  | condition hts =>
    obtain ⟨c', hc', hreads⟩ := hts.exists_condition
    obtain rfl := Except.ok.inj (hc.symm.trans hc')
    exact hreads
  | sorted hts hs ho =>
    rw [Tree.condition, kind_of_type_sortBy hs] at hc
    split at hc <;> cases hc

/-- The preference of a rank is what its rule says. -/
theorem Rank.ranks_of_ofRule (h : ofRule order rule = .ok rank) :
    Ranks order rank.tokens rank.preference := by
  obtain ⟨-, -, hparse, hpreference⟩ := ofTokens_eq_ok_iff.1 (ofRule_eq_ok_iff.1 h).2
  have hderives := derivesRule_of_parse hparse
  have hts := (hderives.exists_preference_iff order).1 ⟨_, hpreference⟩
  obtain ⟨p, hp, hranks⟩ := hderives.exists_preference hts order
  obtain rfl := Except.ok.inj (hpreference.symm.trans hp)
  exact hranks

/-! ### Rankings and filters -/

namespace Ranking

/-- The default rule names nothing, so the terms of a rank are those of the rules. -/
theorem names_of_mem_ranks (h : ofRules order rules = .ok r) (hrank : rank ∈ r.ranks)
    (hnamed : Named rank.tokens q words) : ∃ rule ∈ rules, Rank.grammar.Names rule q words := by
  obtain ⟨rule, hrule, hr⟩ := exists_ofRule_of_mem h hrank
  have htokens := (Rank.ofRule_eq_ok_iff.1 hr).1
  rcases hrule with hrule | rfl
  · exact ⟨rule, hrule, (Grammar.names_iff htokens).2 hnamed⟩
  · have hdefault : Rank.grammar.tokens Rank.defaultRule = .ok [⟨0, 14, .order⟩] := by
      decide +kernel
    obtain hts := Except.ok.inj (htokens.symm.trans hdefault)
    obtain ⟨t, ht, hkind⟩ := hnamed
    rw [hts, List.mem_singleton] at ht
    rw [ht] at hkind
    cases hkind

theorem foldr_compareLex_congr {v w v' w' : Candidate} (h : ∀ p ∈ ps, p v w = p v' w') :
    ps.foldr compareLex (fun _ _ => .eq) v w = ps.foldr compareLex (fun _ _ => .eq) v' w' := by
  induction ps with
  | nil => rfl
  | cons p ps ih =>
    obtain ⟨hp, hps⟩ := List.forall_mem_cons.1 h
    exact congrArg₂ Ordering.then hp (ih hps)

/-- A ranking looks at the terms of its rules and at the version strings only. -/
theorem compare_congr (h : ofRules order rules = .ok r)
    (hv : v.AgreeOn (fun q words => ∃ rule ∈ rules, Rank.grammar.Names rule q words) v')
    (hw : w.AgreeOn (fun q words => ∃ rule ∈ rules, Rank.grammar.Names rule q words) w')
    (hversion : v.version = v'.version) (hversion' : w.version = w'.version) :
    r.compare v w = r.compare v' w' := by
  apply foldr_compareLex_congr
  intro p hp
  obtain ⟨rank, hrank, rfl⟩ := List.mem_map.1 hp
  obtain ⟨rule, -, hrule⟩ := exists_ofRule_of_mem h hrank
  have hnames : ∀ q words, Named rank.tokens q words →
      ∃ rule ∈ rules, Rank.grammar.Names rule q words :=
    fun q words hq => names_of_mem_ranks h hrank hq
  exact (Rank.ranks_of_ofRule hrule).congr (hv.mono hnames) (hw.mono hnames) hversion hversion'

theorem compare_self (h : ofRules order rules = .ok r) (horder : ∀ s, order s s = .eq)
    (v : Candidate) : r.compare v v = .eq := by
  refine compare_eq_eq_iff.2 fun rank hrank => ?_
  obtain ⟨rule, -, hrule⟩ := exists_ofRule_of_mem h hrank
  exact (Rank.ranks_of_ofRule hrule).self horder v

end Ranking

/-- A filter looks at the terms of its query only, and not at version strings. -/
theorem Filter.test_congr {default : Candidate → Bool} {query : String} {f : Filter}
    (h : ofQueryOr default (some query) = .ok f) (hv : v.AgreeOn (grammar.Names query) w) :
    f.test v = f.test w := by
  obtain ⟨ts, hts, h⟩ := bind_eq_ok_iff.1 h
  obtain ⟨a, ha, h⟩ := bind_eq_ok_iff.1 h
  obtain ⟨c, hc, rfl⟩ := map_eq_ok_iff.1 h
  have hnames : ∀ q words, Named ts q words → grammar.Names query q words :=
    fun q words hq => ⟨ts, hts, hq⟩
  exact ((derivesRule_of_parse ha).reads_of_condition hc).congr (hv.mono hnames)

/-- **Tags that no rule names change no verdict.** Candidates of the same versions that answer the
terms of the rules alike compare alike under a ranking. So two candidates of one version that differ
only in values that no rule names are of equal rank, if the order of version strings puts no string
above or below itself. A filter tells apart only candidates that differ in the terms of its query,
whatever their versions are. Neither looks at the order in which values were recorded, nor at how
often. -/
theorem unnamed_tags_ignored :
    (∀ order rules r, Ranking.ofRules order rules = .ok r →
        let asked := fun q words => ∃ rule ∈ rules, Rank.grammar.Names rule q words
        (∀ v v' w w', v.version = v'.version → w.version = w'.version → v.AgreeOn asked v' →
            w.AgreeOn asked w' → r.compare v w = r.compare v' w') ∧
          ((∀ s, order s s = .eq) → ∀ v w, v.version = w.version →
            (∀ q value, (value ∈ v.values q ↔ value ∈ w.values q) ∨
              ∀ words, asked q words → ¬ q.sameValue value words) →
            r.compare v w = .eq) ∧
          ∀ (v w : Candidate) tags tags' others others', (∀ tag, tag ∈ tags ↔ tag ∈ tags') →
            (∀ tag, tag ∈ others ↔ tag ∈ others') →
            r.compare (v.tagged tags) (w.tagged others) =
              r.compare (v.tagged tags') (w.tagged others')) ∧
      ∀ default query f, Filter.ofQueryOr default (some query) = .ok f →
        (∀ v w, v.AgreeOn (Filter.grammar.Names query) w → f.test v = f.test w) ∧
          ∀ (v : Candidate) tags tags', (∀ tag, tag ∈ tags ↔ tag ∈ tags') →
            f.test (v.tagged tags) = f.test (v.tagged tags') := by
  constructor
  · intro order rules r h
    refine ⟨?_, ?_, ?_⟩
    · intro v v' w w' hversion hversion' hv hw
      exact r.compare_congr h hv hw hversion hversion'
    · intro horder v w hversion hdiffer
      -- The first candidate can be replaced by the second, which is as good as itself.
      rw [← Ranking.compare_self h horder w]
      exact r.compare_congr h (Candidate.agreeOn_of_unnamed hdiffer) (.refl w) hversion rfl
    · intro v w tags tags' others others' htags hothers
      exact r.compare_congr h (Candidate.agreeOn_tagged htags v)
        (Candidate.agreeOn_tagged hothers w) (by simp) (by simp)
  · intro default query f h
    constructor
    · intro v w hv
      exact Filter.test_congr h hv
    · intro v tags tags' htags
      exact Filter.test_congr h (Candidate.agreeOn_tagged htags v)

/-- Releases with a build that no rank rule names, and a build of two versions. -/
theorem unnamed_tags_ignored_release :
    ∃ r f v w, Ranking.ofRules .natural ["QUALITY:RELEASED SORT_BY SUFFIX-VERSION"] = .ok r ∧
      Filter.ofQueryOr (fun _ => false) (some "BUILD:1") = .ok f ∧
      v = (Candidate.ofVersion "1.0").add .quality ["RELEASED"] ∧ w = Candidate.ofVersion "2.0" ∧
      r.compare v w = r.compare ((Candidate.ofVersion "1.0").add .quality ["released"]) w ∧
      (∀ s, StringOrder.natural s s = .eq) ∧ r.compare v (v.add .build ["7"]) = .eq ∧
      r.compare (w.tagged [(.type, ["jar"]), (.quality, ["NEW"])]) v =
        r.compare (w.tagged [(.quality, ["NEW"]), (.type, ["jar"]), (.quality, ["NEW"])]) v ∧
      f.test (v.add .build ["1"]) = f.test (w.add .build ["1"]) ∧
      f.test (v.tagged [(.build, ["1"])]) =
        f.test (v.tagged [(.build, ["1"]), (.build, ["1"])]) := by
  obtain ⟨r, hr⟩ := exists_eq_ok_of_isOk
    (x := Ranking.ofRules .natural ["QUALITY:RELEASED SORT_BY SUFFIX-VERSION"])
    (by decide +kernel)
  obtain ⟨f, hf⟩ := exists_eq_ok_of_isOk
    (x := Filter.ofQueryOr (fun _ => false) (some "BUILD:1")) (by decide +kernel)
  have horder : ∀ s, StringOrder.natural s s = .eq := by
    intro s
    show compare s s = .eq
    exact Std.ReflCmp.compare_self
  obtain ⟨hagree, hequal, hrepeat⟩ := unnamed_tags_ignored.1 _ _ r hr
  obtain ⟨hagree', hrepeat'⟩ := unnamed_tags_ignored.2 _ _ f hf
  have htokens : Rank.grammar.tokens "QUALITY:RELEASED SORT_BY SUFFIX-VERSION" =
      .ok [⟨0, 16, .qualifier .quality ["RELEASED"]⟩, ⟨17, 24, .sortBy⟩, ⟨25, 39, .order⟩] := by
    decide +kernel
  -- The only term of the rules asks for a quality.
  have hasked : ∀ q words, (∃ rule ∈ ["QUALITY:RELEASED SORT_BY SUFFIX-VERSION"],
      Rank.grammar.Names rule q words) → q = .quality ∧ words = ["RELEASED"] := by
    rintro q words ⟨rule, hrule, hnames⟩
    obtain rfl := List.mem_singleton.1 hrule
    obtain ⟨t, ht, hkind⟩ := (Grammar.names_iff htokens).1 hnames
    simp only [List.mem_cons, List.not_mem_nil, or_false] at ht
    rcases ht with rfl | rfl | rfl
    · cases hkind
      exact ⟨rfl, rfl⟩
    · cases hkind
    · cases hkind
  refine ⟨r, f, _, _, hr, hf, rfl, rfl, ?_, horder, ?_, ?_, ?_, ?_⟩
  · refine hagree _ _ _ _ rfl rfl ?_ (.refl _)
    intro q words hq
    obtain ⟨rfl, rfl⟩ := hasked q words hq
    decide
  · refine hequal horder _ _ rfl ?_
    intro q value
    by_cases hq : q = .build
    · right
      intro words hwords
      cases hq.symm.trans (hasked q words hwords).1
    · left
      rw [Candidate.values_add _ .build, if_neg hq]
  · refine hrepeat _ _ [(.type, ["jar"]), (.quality, ["NEW"])]
      [(.quality, ["NEW"]), (.type, ["jar"]), (.quality, ["NEW"])] [] [] ?_ (fun _ => Iff.rfl)
    simp [or_comm]
  · refine hagree' _ _ ?_
    intro q words hnames
    have hquery : Filter.grammar.tokens "BUILD:1" = .ok [⟨0, 7, .qualifier .build ["1"]⟩] := by
      decide +kernel
    obtain ⟨t, ht, hkind⟩ := (Grammar.names_iff hquery).1 hnames
    obtain rfl := List.mem_singleton.1 ht
    cases hkind
    decide
  · exact hrepeat' _ _ _ (by simp)

end VersionRules
