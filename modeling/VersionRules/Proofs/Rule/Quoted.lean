import VersionRules.Proofs.Candidate.RoundTrip
import VersionRules.Proofs.Token.Names
import VersionRules.Rule.Filter

/-!
# Values in queries and in documents

A value of a qualifier is written in two places: in quotes behind the name of the qualifier in a
query, and as a text under this name in a document. The query counts the words of the value while
it is read and checks them afterwards; the document checks them at once. It comes to the same,
because a list of words that passes the check has the right length.

## Main definitions

* `Qualifier.quotedTerm` — a query for one value
* `Qualifier.taggedItem`, `Qualifier.taggedJson` — a candidate with one value, and a document with
  this candidate

## Main results

* `Qualifier.candidatesOfJson_taggedJson` — the candidate of the document
* `Qualifier.exists_filter_quotedTerm` — the filter of the query
* `quotedTerm_agrees_with_taggedJson` — both are accepted or none, and the filter keeps the
  candidate
-/

namespace VersionRules

variable {q : Qualifier} {text : String} {e : Qualifier.ValueError}

/-! ### Values that are the same -/

theorem Qualifier.sameWord_self (q : Qualifier) (word : String) : q.sameWord word word := by
  cases q <;> simp [sameWord, Text.sameIgnoringAsciiCase]

theorem Qualifier.sameValue_self (q : Qualifier) (words : List String) :
    q.sameValue words words := by
  induction words with
  | nil => rfl
  | cons word words ih => rw [sameValue, q.sameWord_self word, ih, Bool.and_self]

/-- A candidate has the value that was recorded last. -/
theorem Candidate.has_add (v : Candidate) (q : Qualifier) (words : List String) :
    (v.add q words).has q words := by
  rw [has, values_add, if_pos rfl, List.any_append, List.any_cons, q.sameValue_self words]
  simp

namespace Qualifier

/-- A query for one value, which is written in quotes. -/
def quotedTerm (q : Qualifier) (text : String) : String :=
  q.name ++ ":\"" ++ text ++ "\""

/-- A candidate in a document, which is tagged with one value. -/
def taggedItem (q : Qualifier) (version text : String) : Json String :=
  .object [("version", .string version),
    ("qualifiers", .object [(q.name, .array [.string text])])]

/-- A document with this one candidate. -/
def taggedJson (q : Qualifier) (version text : String) : Json String :=
  .array [q.taggedItem version text]

/-! ### The candidate of the document -/

theorem ofJson?_taggedItem (q : Qualifier) (version text : String) :
    Entry.ofJson? (q.taggedItem version text) = some ⟨version, [(q.name, [text])]⟩ := by
  have hlt : compare "qualifiers" "version" = .lt := by decide
  -- Entries are sorted by their keys.
  have hentries : Json.entries [("version", Json.string version),
      ("qualifiers", .object [(q.name, .array [.string text])])] =
        [("qualifiers", .object [(q.name, .array [.string text])]),
          ("version", .string version)] := by
    simp [Json.entries, Json.insertEntry, hlt]
  rw [taggedItem, Entry.ofJson?, hentries]
  rfl

/-- The text is split into words, and the document is accepted if they are a value. -/
theorem candidatesOfJson_taggedJson (q : Qualifier) (version text : String) :
    candidatesOfJson (q.taggedJson version text) =
      match q.validate (q.splitValue text.toList) with
      | .ok () => .ok [(Candidate.ofVersion version).add q (q.splitValue text.toList)]
      | .error e => .error (.entry (.badValue e version)) := by
  have hentries : [q.taggedItem version text].mapM Entry.ofJson? =
      some [⟨version, [(q.name, [text])]⟩] := by
    rw [List.mapM_cons, ofJson?_taggedItem]
    rfl
  rw [taggedJson, candidatesOfJson]
  simp only [hentries]
  rw [List.mapM_cons, Entry.candidate, List.foldlM_cons, Entry.addTag, ofName?_name]
  simp only [List.foldlM_cons, List.foldlM_nil]
  cases q.validate (q.splitValue text.toList) <;> rfl

/-! ### The filter of the query -/

theorem wordToken?_name (q : Qualifier) : Filter.grammar.wordToken? q.name = none :=
  rfl

theorem qualifier?_name (q : Qualifier) : Filter.grammar.qualifier? q.name = some q :=
  q.ofName?_name

theorem ofRule_quotedTerm (q : Qualifier) (text : String) :
    Cursor.ofRule (q.quotedTerm text) =
      ⟨0, q.name.toList ++ ':' :: '"' :: (text.toList ++ ['"'])⟩ := by
  simp [Cursor.ofRule, quotedTerm]

theorem hasNext_quotedTerm (q : Qualifier) (text : String) :
    (Cursor.ofRule (q.quotedTerm text)).hasNext := by
  rw [ofRule_quotedTerm]
  cases q <;> rfl

/-- A query for one value begins with the name of the qualifier, and the value is read from behind
it. -/
theorem readToken_quotedTerm (q : Qualifier) (text : String) :
    Lexer.readToken Filter.grammar (.ofRule (q.quotedTerm text)) =
      (do
        let words ← Lexer.readValue Filter.grammar q 0
        return ⟨0, ← Lexer.position, .qualifier q words⟩ : Lexer Token)
        ⟨q.name.toList.length, ':' :: '"' :: (text.toList ++ ['"'])⟩ := by
  have hname : q.name.toList ≠ [] := by cases q <;> decide
  have hword : ∀ x ∈ q.name.toList, Filter.grammar.isWordChar x := fun x hx =>
    Grammar.isWordChar_of_isPlain (q.isPlain_name x hx)
  have hcolon : ∀ x ∈ (':' :: '"' :: (text.toList ++ ['"'])).head?,
      Filter.grammar.isWordChar x = false := by
    intro x hx
    obtain rfl := Option.some.inj hx
    rfl
  rw [ofRule_quotedTerm,
    Lexer.readToken_append hname hword (fun _ _ => rfl) hcolon,
    String.ofList_toList, Nat.zero_add, Lexer.readWordToken, wordToken?_name, qualifier?_name]
  simp only [bind_assoc, pure_bind]

theorem readValue_quotedTerm (htext : '"' ∉ text.toList) :
    Lexer.readValue Filter.grammar q 0
        ⟨q.name.toList.length, ':' :: '"' :: (text.toList ++ ['"'])⟩ =
      (if (q.splitValue text.toList).length = q.arity then return q.splitValue text.toList
        else Lexer.failFrom 0 (.quotedWordCount q.arity) : Lexer (List String))
        ⟨q.name.toList.length + 1 + 1 + text.toList.length + 1, []⟩ :=
  Lexer.readValue_quoted rfl htext fun _ _ => rfl

/-- A quoted text whose words are a value of the qualifier is read as one token. -/
theorem nextToken_quotedTerm (htext : '"' ∉ text.toList)
    (hvalid : q.validate (q.splitValue text.toList) = .ok ()) :
    ∃ stop, Lexer.nextToken Filter.grammar (.ofRule (q.quotedTerm text)) =
      .ok ⟨0, stop, .qualifier q (q.splitValue text.toList)⟩ ⟨stop, []⟩ := by
  have hvalue := readValue_quotedTerm (q := q) htext
  rw [if_pos (validate_eq_ok_iff.1 hvalid).1] at hvalue
  have htoken := (q.readToken_quotedTerm text).trans (Lexer.bind_of_ok hvalue)
  exact ⟨_, Lexer.nextToken_of_valid htoken hvalid⟩

/-- Any other quoted text is an error, be it for the number of its words or for one of them. -/
theorem nextToken_quotedTerm_of_error (htext : '"' ∉ text.toList)
    (hvalid : q.validate (q.splitValue text.toList) = .error e) :
    ∃ e c, Lexer.nextToken Filter.grammar (.ofRule (q.quotedTerm text)) = .error e c := by
  have hvalue := readValue_quotedTerm (q := q) htext
  -- A wrong number of words is found by the reader, and a wrong word by the check behind it.
  by_cases hlength : (q.splitValue text.toList).length = q.arity
  · rw [if_pos hlength] at hvalue
    have htoken := (q.readToken_quotedTerm text).trans (Lexer.bind_of_ok hvalue)
    exact ⟨_, _, Lexer.nextToken_of_invalid htoken hvalid⟩
  · rw [if_neg hlength] at hvalue
    have htoken := (q.readToken_quotedTerm text).trans (Lexer.bind_of_error hvalue)
    exact ⟨_, _, Lexer.nextToken_of_error htoken⟩

/-- The filter of a value keeps the candidates that have the value. -/
theorem exists_filter_quotedTerm (htext : '"' ∉ text.toList)
    (hvalid : q.validate (q.splitValue text.toList) = .ok ()) :
    ∃ f, Filter.ofQuery (some (q.quotedTerm text)) = .ok f ∧
      f.tokens.map Token.kind = [.qualifier q (q.splitValue text.toList)] ∧
      ∀ v, f.test v = v.has q (q.splitValue text.toList) := by
  obtain ⟨stop, hnext⟩ := nextToken_quotedTerm htext hvalid
  have htokens : Filter.grammar.tokens (q.quotedTerm text) = _ :=
    Grammar.tokensFrom_of_nextToken (q.hasNext_quotedTerm text) hnext
  rw [Grammar.tokensFrom_of_not_hasNext rfl] at htokens
  rw [Filter.ofQuery, Filter.ofQueryOr, htokens]
  exact ⟨_, rfl, rfl, fun v => rfl⟩

theorem exists_error_quotedTerm (htext : '"' ∉ text.toList)
    (hvalid : q.validate (q.splitValue text.toList) = .error e) :
    ∃ e, Filter.ofQuery (some (q.quotedTerm text)) = .error e := by
  obtain ⟨e, c, hnext⟩ := nextToken_quotedTerm_of_error htext hvalid
  have htokens : Filter.grammar.tokens (q.quotedTerm text) = _ :=
    Grammar.tokensFrom_of_error (q.hasNext_quotedTerm text) hnext
  rw [Filter.ofQuery, Filter.ofQueryOr, htokens]
  exact ⟨e, rfl⟩

end Qualifier

/-- **One value, two notations.** A value that is written in quotes in a query is accepted exactly
if it is accepted as a text of a document, whatever characters other than double quotes it is
written with. It is then split into the same words, and the query keeps the candidate of the
document. -/
theorem quotedTerm_agrees_with_taggedJson (q : Qualifier) (version text : String)
    (htext : '"' ∉ text.toList) :
    ((∃ f, Filter.ofQuery (some (q.quotedTerm text)) = .ok f) ↔
        ∃ vs, candidatesOfJson (q.taggedJson version text) = .ok vs) ∧
      ∀ f vs, Filter.ofQuery (some (q.quotedTerm text)) = .ok f →
        candidatesOfJson (q.taggedJson version text) = .ok vs →
          ∃ v words, vs = [v] ∧ v = (Candidate.ofVersion version).add q words ∧
            f.tokens.map Token.kind = [.qualifier q words] ∧ f.test v := by
  rw [Qualifier.candidatesOfJson_taggedJson]
  cases hvalid : q.validate (q.splitValue text.toList) with
  | ok u =>
    obtain ⟨f, hf, hkinds, htest⟩ := Qualifier.exists_filter_quotedTerm htext hvalid
    refine ⟨⟨fun _ => ⟨_, rfl⟩, fun _ => ⟨f, hf⟩⟩, ?_⟩
    intro f' vs hf' hvs
    obtain rfl := Except.ok.inj (hf.symm.trans hf')
    refine ⟨_, _, (Except.ok.inj hvs).symm, rfl, hkinds, ?_⟩
    rw [htest, Candidate.has_add]
  | error e =>
    obtain ⟨e', he'⟩ := Qualifier.exists_error_quotedTerm htext hvalid
    rw [he']
    exact ⟨⟨nofun, nofun⟩, nofun⟩

/-- A milestone with white space of several kinds around its words. -/
theorem quotedTerm_agrees_with_taggedJson_milestone :
    '"' ∉ "\u3000EAP\u00a07.4\n ER-1 ".toList ∧
      ∃ f v, Filter.ofQuery (some (Qualifier.milestone.quotedTerm "\u3000EAP\u00a07.4\n ER-1 ")) =
          .ok f ∧
        candidatesOfJson (Qualifier.milestone.taggedJson "1.0" "\u3000EAP\u00a07.4\n ER-1 ") =
          .ok [v] ∧ f.test v := by
  have htext : '"' ∉ "\u3000EAP\u00a07.4\n ER-1 ".toList := by decide
  obtain ⟨vs, hvs⟩ := exists_eq_ok_of_isOk
    (x := candidatesOfJson (Qualifier.milestone.taggedJson "1.0" "\u3000EAP\u00a07.4\n ER-1 "))
    (by decide +kernel)
  obtain ⟨hiff, hboth⟩ := quotedTerm_agrees_with_taggedJson .milestone "1.0" _ htext
  obtain ⟨f, hf⟩ := hiff.2 ⟨vs, hvs⟩
  obtain ⟨v, -, rfl, -, -, htest⟩ := hboth f vs hf hvs
  exact ⟨htext, f, v, hf, hvs, htest⟩

end VersionRules
