import VersionRules.Candidate.Document
import VersionRules.Candidate.Listing
import VersionRules.Proofs.Except
import VersionRules.Proofs.Json.RoundTrip
import VersionRules.Proofs.Qualifier.Words

/-!
# Reading listings

A listing in JSON is a document that lists the same candidates, provided that every recorded value
is one that its qualifier admits. Candidates that were read from a document have only such values,
so listings can be read again and again.

## Main definitions

* `Candidate.Valid` — the candidates with admitted values only
* `Candidate.entry` — a candidate as it stands in a listing

## Main results

* `Candidate.ofJson?_toJson` — a listed candidate has the form of a candidate in a document
* `Candidate.candidate_entry` — and is read as the candidate
* `valid_of_readCandidates` — candidates that are read have admitted values only
* `readCandidates_render` — listings are read as the candidates that they list
* `listing_read_again` — the same, for candidates of any origin and for those that were read
-/

namespace VersionRules

variable {v w : Candidate} {vs : List Candidate} {q r : Qualifier}

/-! ### Names -/

namespace Qualifier

theorem ofName?_name (q : Qualifier) : ofName? q.name = some q := by
  cases q <;> decide

theorem byName_pairwise : byName.Pairwise fun q r => compare q.name r.name = .lt := by
  decide

end Qualifier

namespace Candidate

/-- The candidates all of whose values are admitted by their qualifiers. -/
def Valid (v : Candidate) : Prop :=
  ∀ q, ∀ words ∈ v.values q, q.validate words = .ok ()

instance : Decidable v.Valid :=
  decidable_of_iff (∀ q ∈ Qualifier.all, ∀ words ∈ v.values q, q.validate words = .ok ())
    ⟨fun h q => h q q.mem_all, fun h q _ => h q⟩

/-- The qualifiers with a recorded value, in the order of their names. -/
def recorded (v : Candidate) : List Qualifier :=
  Qualifier.byName.filter fun q => !(v.values q).isEmpty

/-- The values of a qualifier as they stand in a listing. -/
def tag (v : Candidate) (q : Qualifier) : String × List String :=
  (q.name, (v.values q).map fun words => " ".intercalate words)

/-- A candidate as it stands in a listing. -/
def entry (v : Candidate) : Entry :=
  ⟨v.version, v.recorded.map v.tag⟩

theorem mem_recorded_iff : q ∈ v.recorded ↔ v.values q ≠ [] := by
  simp [recorded, Qualifier.mem_byName]

theorem recorded_pairwise : v.recorded.Pairwise fun q r => compare q.name r.name = .lt :=
  Qualifier.byName_pairwise.filter _

theorem recorded_nodup : v.recorded.Nodup := by
  have hall : Qualifier.byName.Nodup := by decide
  exact hall.filter _

/-! ### A listed candidate in a document -/

theorem strings?_valuesJson (v : Candidate) (q : Qualifier) :
    (v.valuesJson q).strings? = some ((v.values q).map fun words => " ".intercalate words) := by
  rw [valuesJson, Json.strings?, List.mapM_map]
  exact List.mapM_pure

/-- What is listed under the names of the qualifiers is read as such. -/
theorem tags?_toJson (v : Candidate) :
    Entry.tags? (.object (v.recorded.map fun q => (q.name, v.valuesJson q))) =
      some (v.recorded.map v.tag) := by
  have hkeys : Json.KeysAscend (v.recorded.map fun q => (q.name, v.valuesJson q)) :=
    List.pairwise_map.2 v.recorded_pairwise
  rw [Entry.tags?, Json.entries_of_keysAscend hkeys, List.mapM_map]
  simp only [Function.comp_def, strings?_valuesJson]
  exact List.mapM_pure

/-- A listed candidate has the form of a candidate in a document. -/
theorem ofJson?_toJson (v : Candidate) : Entry.ofJson? v.toJson = some v.entry := by
  have hkeys : Json.KeysAscend [
      ("qualifiers", Json.object (v.recorded.map fun q => (q.name, v.valuesJson q))),
      ("version", .string v.version)] := by
    have hlt : compare "qualifiers" "version" = .lt := by decide
    exact List.pairwise_pair.2 hlt
  have htags := v.tags?_toJson
  show Entry.ofJson? (.object [
    ("qualifiers", .object (v.recorded.map fun q => (q.name, v.valuesJson q))),
    ("version", .string v.version)]) = _
  -- The keys are in order as they are printed, so that nothing is moved when they are read.
  rw [Entry.ofJson?, Json.entries_of_keysAscend hkeys]
  simp [List.lookup_cons, Json.string?, Entry.optionalTags?, htags, entry]

/-! ### Recording what is listed -/

/-- A candidate with further values of one qualifier. -/
def addAll (w : Candidate) (q : Qualifier) (values : List (List String)) : Candidate :=
  { w with values := fun r => if r = q then w.values r ++ values else w.values r }

theorem addAll_nil (w : Candidate) (q : Qualifier) : w.addAll q [] = w := by
  ext1
  · rfl
  · funext r
    simp [addAll]

theorem addAll_cons (w : Candidate) (q : Qualifier) (words : List String)
    (values : List (List String)) :
    w.addAll q (words :: values) = (w.add q words).addAll q values := by
  ext1
  · rfl
  · funext r
    simp only [addAll, values_add]
    split <;> simp

/-- Texts of admitted values of a qualifier are recorded as the values that they were made from. -/
theorem addTag_texts {values : List (List String)}
    (hvalues : ∀ words ∈ values, q.validate words = .ok ()) (w : Candidate) :
    Entry.addTag w (q.name, values.map fun words => " ".intercalate words) =
      .ok (w.addAll q values) := by
  rw [Entry.addTag, Qualifier.ofName?_name]
  show List.foldlM _ w (values.map _) = _
  rw [List.foldlM_map]
  induction values generalizing w with
  | nil =>
    rw [addAll_nil]
    rfl
  | cons words values ih =>
    obtain ⟨hwords, hvalues⟩ := List.forall_mem_cons.1 hvalues
    rw [List.foldlM_cons, addAll_cons]
    simp only [Qualifier.splitValue_intercalate hwords, hwords]
    exact ih hvalues (w.add q words)

/-- Recording all that is listed under different qualifiers. -/
theorem foldlM_addTag (hv : v.Valid) {qs : List Qualifier} (hqs : qs.Nodup) (w : Candidate) :
    ∃ w', (qs.map v.tag).foldlM Entry.addTag w = .ok w' ∧ w'.version = w.version ∧
      ∀ r, w'.values r = if r ∈ qs then w.values r ++ v.values r else w.values r := by
  induction qs generalizing w with
  | nil => exact ⟨w, rfl, rfl, fun r => rfl⟩
  | cons q qs ih =>
    obtain ⟨hq, hqs⟩ := List.nodup_cons.1 hqs
    -- The qualifiers behind the first one are others, and leave its values alone.
    obtain ⟨w', hw', hversion, hvalues⟩ := ih hqs (w.addAll q (v.values q))
    refine ⟨w', ?_, hversion, ?_⟩
    · rw [List.map_cons, List.foldlM_cons, tag, addTag_texts (hv q)]
      exact hw'
    · intro r
      rw [hvalues r]
      by_cases hr : r = q
      · subst hr
        simp [hq, addAll]
      · simp [hr, addAll]

/-- A listed candidate is read as itself. -/
theorem candidate_entry (hv : v.Valid) : v.entry.candidate = .ok v := by
  obtain ⟨w, hw, hversion, hvalues⟩ := foldlM_addTag hv v.recorded_nodup (ofVersion v.version)
  rw [Entry.candidate, entry, hw]
  congr 1
  ext1
  · exact hversion
  · funext q
    rw [hvalues q]
    split
    · rfl
    · next hq =>
      -- What is not listed has no value.
      rw [mem_recorded_iff, Decidable.not_not] at hq
      exact hq.symm

end Candidate

/-! ### Candidates that are read -/

theorem Candidate.Valid.add (hv : v.Valid) {words : List String}
    (h : q.validate words = .ok ()) : (v.add q words).Valid := by
  intro r value hvalue
  rw [values_add] at hvalue
  split at hvalue
  · next hr =>
    subst hr
    rcases List.mem_append.1 hvalue with hvalue | hvalue
    · exact hv r value hvalue
    · obtain rfl := List.mem_singleton.1 hvalue
      exact h
  · exact hv r value hvalue

/-- Only values that are admitted are recorded. -/
theorem Entry.valid_of_addTag {tag : String × List String} (hv : v.Valid)
    (h : addTag v tag = .ok w) : w.Valid := by
  unfold addTag at h
  split at h
  · cases h
  · refine foldlM_preserves ?_ hv h
    intro v text w hv hw
    simp only at hw
    split at hw
    · next hwords =>
      obtain rfl := Except.ok.inj hw
      exact hv.add hwords
    · cases hw

theorem Entry.valid_of_candidate {e : Entry} (h : e.candidate = .ok v) : v.Valid := by
  have hempty : (Candidate.ofVersion e.version).Valid := by
    intro q words hwords
    cases hwords
  exact foldlM_preserves (fun _ _ _ => valid_of_addTag) hempty h

/-- Candidates that are read from a document have admitted values only. -/
theorem valid_of_candidatesOfJson {json : Json String} (h : candidatesOfJson json = .ok vs) :
    ∀ v ∈ vs, v.Valid := by
  cases json with
  | array items =>
    unfold candidatesOfJson at h
    simp only at h
    split at h
    · cases h
    · intro v hv
      obtain ⟨e, -, he⟩ := exists_of_mapM_eq_ok (mapError_eq_ok_iff.1 h) v hv
      exact Entry.valid_of_candidate he
  | _ => cases h

theorem valid_of_readCandidates {text : String} (h : readCandidates text = .ok vs) :
    ∀ v ∈ vs, v.Valid := by
  unfold readCandidates at h
  split at h
  · cases h
  · exact valid_of_candidatesOfJson h

/-! ### Whole listings -/

theorem Candidate.depth_valuesJson_le (v : Candidate) (q : Qualifier) :
    (v.valuesJson q).depth ≤ 1 := by
  rw [valuesJson, Json.depth]
  refine Nat.succ_le_succ (Json.depthItems_le_iff.2 ?_)
  intro item hitem
  obtain ⟨words, -, rfl⟩ := List.mem_map.1 hitem
  exact Nat.le_refl 0

theorem Candidate.depth_toJson_le (v : Candidate) : v.toJson.depth ≤ 3 := by
  rw [toJson, Json.depth]
  refine Nat.succ_le_succ (Json.depthMembers_le_iff.2 (List.forall_mem_cons.2
    ⟨?_, List.forall_mem_singleton.2 (Nat.zero_le 2)⟩))
  rw [Json.depth]
  refine Nat.succ_le_succ (Json.depthMembers_le_iff.2 ?_)
  intro member hmember
  obtain ⟨q, -, rfl⟩ := List.mem_map.1 hmember
  exact v.depth_valuesJson_le q

/-- A listing is an array of objects with an object of arrays in each. -/
theorem depth_candidatesToJson_le (vs : List Candidate) : (candidatesToJson vs).depth ≤ 4 := by
  rw [candidatesToJson, Json.depth]
  refine Nat.succ_le_succ (Json.depthItems_le_iff.2 ?_)
  intro item hitem
  obtain ⟨v, -, rfl⟩ := List.mem_map.1 hitem
  exact v.depth_toJson_le

variable {accepts : String → Bool}

theorem Candidate.allNumbers_valuesJson (v : Candidate) (q : Qualifier) :
    (v.valuesJson q).allNumbers accepts := by
  rw [valuesJson, Json.allNumbers, Json.allNumbersItems_iff]
  intro item hitem
  obtain ⟨words, -, rfl⟩ := List.mem_map.1 hitem
  rfl

theorem Candidate.allNumbers_toJson (v : Candidate) : v.toJson.allNumbers accepts := by
  rw [toJson, Json.allNumbers, Json.allNumbersMembers_iff]
  refine List.forall_mem_cons.2 ⟨?_, List.forall_mem_singleton.2 rfl⟩
  rw [Json.allNumbers, Json.allNumbersMembers_iff]
  intro member hmember
  obtain ⟨q, -, rfl⟩ := List.mem_map.1 hmember
  exact v.allNumbers_valuesJson q

/-- There are no numbers in a listing. -/
theorem allNumbers_candidatesToJson (vs : List Candidate) :
    (candidatesToJson vs).allNumbers accepts := by
  rw [candidatesToJson, Json.allNumbers, Json.allNumbersItems_iff]
  intro item hitem
  obtain ⟨v, -, rfl⟩ := List.mem_map.1 hitem
  exact v.allNumbers_toJson

theorem candidatesOfJson_candidatesToJson (h : ∀ v ∈ vs, v.Valid) :
    candidatesOfJson (candidatesToJson vs) = .ok vs := by
  have hentries : (vs.map Candidate.toJson).mapM Entry.ofJson? = some (vs.map Candidate.entry) := by
    rw [List.mapM_map]
    simp only [Function.comp_def, Candidate.ofJson?_toJson]
    exact List.mapM_pure
  have hcandidates : (vs.map Candidate.entry).mapM Entry.candidate = .ok vs :=
    mapM_map_eq_ok fun v hv => Candidate.candidate_entry (h v hv)
  rw [candidatesToJson, candidatesOfJson]
  simp only [hentries, hcandidates]
  rfl

/-- A listing on one line, or over several, is the JSON value that it lists. -/
theorem readStrict?_render (vs : List Candidate) (pretty : Bool) :
    Json.readStrict? (Format.json.render pretty vs) = some (candidatesToJson vs) := by
  have hdepth : (candidatesToJson vs).depth ≤ Json.maxDepth :=
    Nat.le_trans (depth_candidatesToJson_le vs) (by decide)
  have hnumbers : (candidatesToJson vs).allNumbers Json.acceptsNumber :=
    allNumbers_candidatesToJson vs
  cases pretty with
  | false => exact Json.readStrict?_compact hdepth hnumbers
  | true => exact Json.readStrict?_pretty hdepth hnumbers

/-- Listings are read as the candidates that they list. -/
theorem readCandidates_render (h : ∀ v ∈ vs, v.Valid) (pretty : Bool) :
    readCandidates (Format.json.render pretty vs) = .ok vs := by
  rw [readCandidates, readStrict?_render]
  exact candidatesOfJson_candidatesToJson h

/-- **Listings can be read again.** A listing of candidates with admitted values only, on one line
or over several, is read as the same candidates in the same order, whatever their version strings.
This goes for all candidates that were themselves read from a JSON value. -/
theorem listing_read_again :
    (∀ vs : List Candidate, (∀ v ∈ vs, v.Valid) →
        ∀ pretty, readCandidates (Format.json.render pretty vs) = .ok vs) ∧
      ∀ json vs, candidatesOfJson json = .ok vs →
        ∀ pretty, readCandidates (Format.json.render pretty vs) = .ok vs := by
  refine ⟨fun vs hvs => readCandidates_render hvs, ?_⟩
  intro json vs h
  exact readCandidates_render (valid_of_candidatesOfJson h)

/-- A version string with characters that are escaped, values of two words and a phrase, and a
candidate whose values are written under two spellings of one name. -/
theorem listing_read_again_phrase :
    (∃ v : Candidate, v.version = "1.0 \"é\"\\\t\u0001" ∧ v.values .version = [["EAP", "7.4"]] ∧
        v.values .groupVersion = [["GA 2"]] ∧
          readCandidates (Format.json.render true [v]) = .ok [v]) ∧
      ∃ (json : Json String) (v : Candidate),
        v.values .quality = [["Tested"], ["released"]] ∧ candidatesOfJson json = .ok [v] ∧
          readCandidates (Format.json.render false [v]) = .ok [v] := by
  constructor
  · refine ⟨((Candidate.ofVersion "1.0 \"é\"\\\t\u0001").add .version ["EAP", "7.4"]).add
      .groupVersion ["GA 2"], rfl, rfl, rfl, listing_read_again.1 _ (by decide +kernel) true⟩
  · have h : candidatesOfJson (.array [.array [.string "2", .object [
        ("quality", .array [.string " released "]), ("QUALITY", .array [.string "Tested"])]]]) =
          .ok [((Candidate.ofVersion "2").add .quality ["Tested"]).add .quality ["released"]] := by
      decide +kernel
    exact ⟨_, _, rfl, h, listing_read_again.2 _ _ h false⟩

end VersionRules
