import Mathlib.Data.List.Forall2
import VersionRules.Candidate.Document
import VersionRules.Proofs.Except
import VersionRules.Proofs.Json.Keys

/-!
# What a document lists

A document that has the proper shape lists entries, one for each item of its array. If nothing is
wrong with any of them, each becomes a candidate with the version string of the entry, and with all
the values that stand under the names of each qualifier, in whatever spellings. If something is
wrong, there are no candidates at all, but the first thing that is wrong: in the order of the items,
of the keys of each, and of the texts under each key.

## Main definitions

* `Entry.Describes`, `Json.Lists` — the entry that an item describes, and those of a whole document
* `Entry.valuesOf` — the values that an entry lists for a qualifier
* `Entry.offences` — all that is wrong with an entry

## Main results

* `Entry.ofJson?_eq_some_iff` — items of the proper shape
* `Entry.candidate_eq` — what becomes of an entry
* `candidatesOfJson_verdict` — what becomes of a document
-/

namespace VersionRules

variable {json : Json String} {tags : List (String × List String)} {e : Entry}

/-! ### The shape of a document -/

theorem mapM_eq_some_iff {α β : Type} {f : α → Option β} {xs : List α} {ys : List β} :
    xs.mapM f = some ys ↔ List.Forall₂ (fun x y => f x = some y) xs ys := by
  induction xs generalizing ys with
  | nil => simp [eq_comm]
  | cons x xs ih =>
    simp only [List.mapM_cons, bind, Option.bind_eq_some_iff, pure, Option.some.injEq,
      List.forall₂_cons_left_iff, ih]
    constructor
    · rintro ⟨y, hy, zs, hzs, rfl⟩
      exact ⟨y, zs, hy, hzs, rfl⟩
    · rintro ⟨y, zs, hy, hzs, rfl⟩
      exact ⟨y, hy, zs, hzs, rfl⟩

/-- Where each result has one source, a list of results has one list of sources. -/
theorem mapM_eq_some_iff_eq_map {α β : Type} {f : α → Option β} {g : β → α}
    (h : ∀ x y, f x = some y ↔ x = g y) {xs : List α} {ys : List β} :
    xs.mapM f = some ys ↔ xs = ys.map g := by
  simp only [mapM_eq_some_iff, h]
  rw [← List.forall₂_map_right_iff, List.forall₂_eq_eq_eq]

namespace Json

theorem string?_eq_some_iff {s : String} : json.string? = some s ↔ json = .string s := by
  cases json <;> simp [string?]

theorem strings?_eq_some_iff {texts : List String} :
    json.strings? = some texts ↔ json = .array (texts.map .string) := by
  cases json with
  | array items =>
    rw [strings?, mapM_eq_some_iff_eq_map fun _ _ => string?_eq_some_iff, array.injEq]
  | _ => simp [strings?]

end Json

namespace Entry

/-- An object has the listed keys, which ascend, and under each of them an array of the listed
texts. -/
inductive ListsTags : Json String → List (String × List String) → Prop
  | object {members : List (String × Json String)} {tags : List (String × List String)}
      (hkeys : Json.KeysAscend tags)
      (htexts : ∀ key, Json.member? key members =
        (tags.lookup key).map fun texts => .array (texts.map .string)) :
      ListsTags (.object members) tags

/-- An item describes an entry: an object with a version string and, maybe, qualifier values, or an
array of the two. -/
inductive Describes : Json String → Entry → Prop
  | tagged {members : List (String × Json String)} {version : String} {value : Json String}
      {tags : List (String × List String)}
      (hversion : Json.member? "version" members = some (.string version))
      (hvalue : Json.member? "qualifiers" members = some value) (htags : ListsTags value tags) :
      Describes (.object members) ⟨version, tags⟩
  | bare {members : List (String × Json String)} {version : String}
      (hversion : Json.member? "version" members = some (.string version))
      (hnone : Json.member? "qualifiers" members = none) :
      Describes (.object members) ⟨version, []⟩
  | pair {version : String} {value : Json String} {tags : List (String × List String)}
      (htags : ListsTags value tags) : Describes (.array [.string version, value]) ⟨version, tags⟩
  | single {version : String} : Describes (.array [.string version]) ⟨version, []⟩

theorem lookup_map_snd {α β : Type} (f : α → β) (key : String) (members : List (String × α)) :
    (members.map fun member => (member.1, f member.2)).lookup key =
      (members.lookup key).map f := by
  induction members with
  | nil => rfl
  | cons member members ih =>
    rw [List.map_cons, Json.lookup_cons_eq, Json.lookup_cons_eq, ih]
    split <;> rfl

theorem tags?_eq_some_iff : tags? json = some tags ↔ ListsTags json tags := by
  cases json with
  | object members =>
    have hmember : ∀ (member : String × Json String) (tag : String × List String),
        (do return (member.1, ← member.2.strings?) : Option (String × List String)) = some tag ↔
          member = (tag.1, .array (tag.2.map .string)) := by
      rintro ⟨key, value⟩ ⟨key', texts⟩
      simp [bind, Option.bind_eq_some_iff, Json.strings?_eq_some_iff, and_comm]
    have hentries : tags? (.object members) = some tags ↔ Json.entries members =
        tags.map fun tag => (tag.1, .array (tag.2.map .string)) :=
      mapM_eq_some_iff_eq_map hmember
    have hkeys : Json.KeysAscend (tags.map fun tag =>
        (tag.1, (Json.array (tag.2.map .string) : Json String))) ↔ Json.KeysAscend tags :=
      List.pairwise_map
    rw [hentries, Json.entries_eq_iff, hkeys]
    simp only [lookup_map_snd fun texts : List String =>
      (Json.array (texts.map .string) : Json String)]
    constructor
    · rintro ⟨hascend, htexts⟩
      exact .object hascend fun key => (htexts key).symm
    · rintro ⟨hascend, htexts⟩
      exact ⟨hascend, fun key => (htexts key).symm⟩
  | _ => exact ⟨nofun, nofun⟩

theorem ofJson?_object_eq_some_iff {members : List (String × Json String)} :
    ofJson? (.object members) = some e ↔
      Json.member? "version" members = some (.string e.version) ∧
        optionalTags? (Json.member? "qualifiers" members) = some e.tags := by
  simp only [ofJson?, bind, Option.bind_eq_some_iff, pure, Option.some.injEq, Json.lookup_entries,
    Json.string?_eq_some_iff]
  constructor
  · rintro ⟨_, hversion, _, rfl, tags, htags, rfl⟩
    exact ⟨hversion, htags⟩
  · rintro ⟨hversion, htags⟩
    exact ⟨_, hversion, _, rfl, _, htags, rfl⟩

theorem ofJson?_eq_some_of_describes (h : Describes json e) : ofJson? json = some e := by
  cases h with
  | tagged hversion hvalue htags =>
    rw [ofJson?_object_eq_some_iff, hvalue]
    exact ⟨hversion, tags?_eq_some_iff.2 htags⟩
  | bare hversion hnone =>
    rw [ofJson?_object_eq_some_iff, hnone]
    exact ⟨hversion, rfl⟩
  | pair htags => simp [ofJson?, Json.string?, tags?_eq_some_iff.2 htags]
  | single => rfl

theorem describes_of_ofJson? (h : ofJson? json = some e) : Describes json e := by
  obtain ⟨version, tags⟩ := e
  cases json with
  | object members =>
    obtain ⟨hversion, htags⟩ := ofJson?_object_eq_some_iff.1 h
    cases hvalue : Json.member? "qualifiers" members with
    | none =>
      rw [hvalue] at htags
      obtain rfl := Option.some.inj htags
      exact .bare hversion hvalue
    | some value =>
      rw [hvalue] at htags
      exact .tagged hversion hvalue (tags?_eq_some_iff.1 htags)
  | array items =>
    match items with
    | [first] =>
      obtain ⟨_, hversion, he⟩ := Option.bind_eq_some_iff.1 h
      obtain rfl := Json.string?_eq_some_iff.1 hversion
      obtain ⟨rfl, rfl⟩ := Entry.mk.inj (Option.some.inj he)
      exact .single
    | [first, value] =>
      obtain ⟨_, hversion, he⟩ := Option.bind_eq_some_iff.1 h
      obtain ⟨_, htags, he⟩ := Option.bind_eq_some_iff.1 he
      obtain rfl := Json.string?_eq_some_iff.1 hversion
      obtain ⟨rfl, rfl⟩ := Entry.mk.inj (Option.some.inj he)
      exact .pair (tags?_eq_some_iff.1 htags)
    | [] => cases h
    | _ :: _ :: _ :: _ => cases h
  | _ => cases h

/-- Items of the proper shape are those that describe an entry. -/
theorem ofJson?_eq_some_iff : ofJson? json = some e ↔ Describes json e :=
  ⟨describes_of_ofJson?, ofJson?_eq_some_of_describes⟩

end Entry

/-- A document lists entries: it is an array, and its items describe them, one each. -/
def Json.Lists (json : Json String) (entries : List Entry) : Prop :=
  ∃ items, json = .array items ∧ List.Forall₂ Entry.Describes items entries

/-- The entries of a document, before anything in them is looked up. -/
theorem candidatesOfJson_of_lists {entries : List Entry} (h : json.Lists entries) :
    candidatesOfJson json = (entries.mapM Entry.candidate).mapError .entry := by
  obtain ⟨items, rfl, hitems⟩ := h
  have hread : items.mapM Entry.ofJson? = some entries := by
    rw [mapM_eq_some_iff]
    exact hitems.imp fun _ _ => Entry.ofJson?_eq_some_iff.2
  simp only [candidatesOfJson, hread]

theorem candidatesOfJson_of_not_lists (h : ¬ ∃ entries, json.Lists entries) :
    candidatesOfJson json = .error .malformed := by
  cases json with
  | array items =>
    have hread : items.mapM Entry.ofJson? = none := by
      rw [Option.eq_none_iff_forall_ne_some]
      intro entries hentries
      refine h ⟨entries, items, rfl, ?_⟩
      exact (mapM_eq_some_iff.1 hentries).imp fun _ _ => Entry.ofJson?_eq_some_iff.1
    simp only [candidatesOfJson, hread]
  | _ => rfl

/-! ### The values of an entry -/

namespace Entry

/-- The values that a key and the texts under it give for a qualifier. -/
def tagValues (q : Qualifier) (tag : String × List String) : List (List String) :=
  if Qualifier.ofName? tag.1 = some q then tag.2.map fun text => q.splitValue text.toList else []

/-- The values that an entry lists for a qualifier, under all keys that name it. -/
def valuesOf (e : Entry) (q : Qualifier) : List (List String) :=
  e.tags.flatMap (tagValues q)

/-- What is wrong with a text as a value of a qualifier. -/
def valueOffences (version : String) (q : Qualifier) (text : String) : List EntryError :=
  match q.validate (q.splitValue text.toList) with
  | .ok () => []
  | .error cause => [.badValue cause version]

/-- What is wrong with a key and the texts under it. -/
def tagOffences (version : String) (tag : String × List String) : List EntryError :=
  match Qualifier.ofName? tag.1 with
  | none => [.unknownQualifier tag.1 version]
  | some q => tag.2.flatMap (valueOffences version q)

/-- All that is wrong with an entry, in the order of its keys and of the texts under each. -/
def offences (e : Entry) : List EntryError :=
  e.tags.flatMap (tagOffences e.version)

/-- A candidate with more values. -/
def extended (v : Candidate) (values : Qualifier → List (List String)) : Candidate :=
  ⟨v.version, fun q => v.values q ++ values q⟩

theorem extended_extended (v : Candidate) (values more : Qualifier → List (List String)) :
    extended (extended v values) more = extended v fun q => values q ++ more q := by
  simp [extended]

theorem extended_nil (v : Candidate) : (extended v fun _ => []) = v := by
  simp [extended]

theorem foldl_extended {α : Type} (values : α → Qualifier → List (List String)) (xs : List α)
    (v : Candidate) : xs.foldl (fun v x => extended v (values x)) v =
      extended v fun q => xs.flatMap fun x => values x q := by
  induction xs generalizing v with
  | nil => exact (extended_nil v).symm
  | cons x xs ih => rw [List.foldl_cons, ih, extended_extended]; rfl

theorem add_eq_extended (v : Candidate) (q : Qualifier) (value : List String) :
    v.add q value = extended v fun r => if q = r then [value] else [] := by
  refine Candidate.ext rfl (funext fun r => ?_)
  rw [Candidate.values_add]
  by_cases hr : q = r
  · simp [extended, hr]
  · simp [extended, hr, Ne.symm hr]

theorem flatMap_ite_singleton {α β : Type} {p : Prop} [Decidable p] (f : α → β) (xs : List α) :
    (xs.flatMap fun x => if p then [f x] else []) = if p then xs.map f else [] := by
  split
  · exact List.map_eq_flatMap.symm
  · exact List.flatMap_eq_nil_iff.2 fun _ _ => rfl

theorem tagValues_eq {tag : String × List String} {r : Qualifier}
    (h : Qualifier.ofName? tag.1 = some r) (q : Qualifier) :
    tagValues q tag = if r = q then tag.2.map fun text => r.splitValue text.toList else [] := by
  rw [tagValues, h]
  by_cases hr : r = q
  · rw [if_pos (congrArg some hr), if_pos hr, hr]
  · rw [if_neg fun heq => hr (Option.some.inj heq), if_neg hr]

/-- What becomes of a key and the texts under it. -/
theorem addTag_eq (v : Candidate) (tag : String × List String) :
    addTag v tag = okUnless (tagOffences v.version tag) (extended v fun q => tagValues q tag) := by
  unfold addTag tagOffences
  cases hq : Qualifier.ofName? tag.1 with
  | none => rfl
  | some q =>
    have htext (w : Candidate) (text : String) (hw : w.version = v.version) :
        (match q.validate (q.splitValue text.toList) with
          | .ok () => .ok (w.add q (q.splitValue text.toList))
          | .error cause => .error (.badValue cause w.version)) =
        okUnless (valueOffences v.version q text)
          (extended w fun r => if q = r then [q.splitValue text.toList] else []) := by
      unfold valueOffences
      split
      · rw [add_eq_extended]
        rfl
      · rw [hw]
        rfl
    refine (foldlM_okUnless htext (fun _ _ hw => hw) tag.2 rfl).trans ?_
    simp only [foldl_extended, flatMap_ite_singleton, tagValues_eq hq]

/-- What becomes of an entry. -/
theorem candidate_eq (e : Entry) : e.candidate = okUnless e.offences ⟨e.version, e.valuesOf⟩ := by
  have htag (w : Candidate) (tag : String × List String) (hw : w.version = e.version) :
      addTag w tag = okUnless (tagOffences e.version tag) (extended w fun q => tagValues q tag) :=
    hw ▸ addTag_eq w tag
  refine (foldlM_okUnless htag (fun _ _ hw => hw) e.tags rfl).trans ?_
  rw [foldl_extended]
  rfl

end Entry

/-! ### The outcome -/

variable {entries : List Entry}

/-- A document lists one list of entries at most. -/
theorem Json.Lists.unique {entries' : List Entry} (h : json.Lists entries)
    (h' : json.Lists entries') : entries = entries' := by
  obtain ⟨items, rfl, hitems⟩ := h
  obtain ⟨items', heq, hitems'⟩ := h'
  obtain rfl := Json.array.inj heq
  have hread := mapM_eq_some_iff.2 (hitems.imp fun _ _ => Entry.ofJson?_eq_some_iff.2)
  have hread' := mapM_eq_some_iff.2 (hitems'.imp fun _ _ => Entry.ofJson?_eq_some_iff.2)
  exact Option.some.inj (hread.symm.trans hread')

theorem candidatesOfJson_eq_of_lists (h : json.Lists entries) :
    candidatesOfJson json = (okUnless (entries.flatMap Entry.offences)
      (entries.map fun e => ⟨e.version, e.valuesOf⟩)).mapError .entry := by
  rw [candidatesOfJson_of_lists h, mapM_okUnless Entry.candidate_eq]

/-- **What becomes of a document.** It gives candidates exactly if it has the proper shape and
nothing is wrong with any of its entries. They are then the entries one by one, in order and with
their version strings, each with the values that stand under the names of a qualifier and no others,
in the order of the keys. If a document has the proper shape and something is wrong, then it gives
the first thing that is wrong, in the order of the entries, of the keys and of the texts. Documents
of any other shape give nothing else. -/
theorem candidatesOfJson_verdict (json : Json String) :
    (∀ vs, candidatesOfJson json = .ok vs ↔ ∃ entries, json.Lists entries ∧
      entries.flatMap Entry.offences = [] ∧ vs = entries.map fun e => ⟨e.version, e.valuesOf⟩) ∧
    (∀ err, candidatesOfJson json = .error (.entry err) ↔ ∃ entries, json.Lists entries ∧
      (entries.flatMap Entry.offences).head? = some err) ∧
    (candidatesOfJson json = .error .malformed ↔ ¬ ∃ entries, json.Lists entries) := by
  by_cases hlists : ∃ entries, json.Lists entries
  · obtain ⟨entries, hentries⟩ := hlists
    have honly (p : List Entry → Prop) : (∃ es, json.Lists es ∧ p es) ↔ p entries := by
      constructor
      · rintro ⟨es, hes, hp⟩
        exact hes.unique hentries ▸ hp
      · exact fun hp => ⟨entries, hentries, hp⟩
    have hmalformed : ¬ ¬ ∃ entries, json.Lists entries := not_not_intro ⟨entries, hentries⟩
    simp only [honly, candidatesOfJson_eq_of_lists hentries, mapError_eq_ok_iff,
      okUnless_eq_ok_iff, mapError_eq_error_iff, okUnless_eq_error_iff, iff_false_right hmalformed]
    simp
  · have hnone (p : List Entry → Prop) : ¬ ∃ es, json.Lists es ∧ p es :=
      fun ⟨es, hes, _⟩ => hlists ⟨es, hes⟩
    rw [candidatesOfJson_of_not_lists hlists]
    exact ⟨fun vs => iff_of_false nofun (hnone _), fun err => iff_of_false nofun (hnone _),
      iff_of_true rfl hlists⟩

/-- Keys that name the same qualifier are taken in their order, not in that of the document. -/
example : candidatesOfJson (.array [.object [("version", .string "1.0"), ("qualifiers", .object [
    ("build", .array [.string " 2 "]), ("group-build", .array []),
    ("BUILD", .array [.string "1"])])]]) =
      .ok [((Candidate.ofVersion "1.0").add .build ["1"]).add .build ["2"]] := by
  decide +kernel

end VersionRules
