import VersionRules.Command.Sort
import VersionRules.Proofs.Candidate.RoundTrip
import VersionRules.Proofs.Rule.Sorting

/-!
# Sorting what has been sorted

A listing in JSON can be sorted again under the same configuration, and stays as it is: it is read
as the candidates that it lists, the filter keeps all of them, and they are in order already. The
sort is stable, so candidates of equal rank do not change places either.

## Main results

* `sortCandidates_eq_ok_iff` — what it takes to sort a document
* `sortCandidates_again` — a sorted listing stays as it is
-/

namespace VersionRules

open Std

variable {compiles : String → Bool} {config : Config}

/-- What it takes to sort a document: rules that can be read, and candidates that can. -/
theorem sortCandidates_eq_ok_iff {input : Option String} {format : Format} {pretty : Bool}
    {out : String} :
    sortCandidates compiles config input format pretty = .ok out ↔
      ∃ filter ranking text vs, config.build compiles = .ok (filter, ranking) ∧ input = some text ∧
        readCandidates text = .ok vs ∧
          out = format.render pretty (ranking.sortBestFirst (vs.filter filter.test)) := by
  rw [sortCandidates, bind_eq_ok_iff]
  constructor
  · rintro ⟨⟨filter, ranking⟩, hbuild, h⟩
    cases input with
    | none => cases h
    | some text =>
      obtain ⟨vs, hvs, rfl⟩ := map_eq_ok_iff.1 h
      exact ⟨filter, ranking, text, vs, mapError_eq_ok_iff.1 hbuild, rfl,
        mapError_eq_ok_iff.1 hvs, rfl⟩
  · rintro ⟨filter, ranking, text, vs, hbuild, rfl, hvs, rfl⟩
    exact ⟨(filter, ranking), mapError_eq_ok_iff.2 hbuild,
      map_eq_ok_iff.2 ⟨vs, mapError_eq_ok_iff.2 hvs, rfl⟩⟩

/-- A ranking that is built for a configuration compares by a total preorder. -/
theorem Config.transCmp_of_build {filter : Filter} {ranking : Ranking}
    (h : config.build compiles = .ok (filter, ranking)) : TransCmp ranking.compare := by
  obtain ⟨filter', -, h⟩ := bind_eq_ok_iff.1 h
  obtain ⟨ranking', hranking, h⟩ := map_eq_ok_iff.1 h
  obtain ⟨-, rfl⟩ := Prod.mk.inj h
  exact Ranking.transCmp_compare hranking

/-- **A sorted listing stays as it is.** Whenever a document has been sorted under a configuration
and listed in JSON, on one line or over several, the listing can be sorted in the same way, and the
result is the listing itself. -/
theorem sortCandidates_again (compiles : String → Bool) (config : Config) (input : Option String)
    (pretty : Bool) (out : String)
    (h : sortCandidates compiles config input .json pretty = .ok out) :
    sortCandidates compiles config (some out) .json pretty = .ok out := by
  obtain ⟨filter, ranking, text, vs, hbuild, -, hread, rfl⟩ := sortCandidates_eq_ok_iff.1 h
  have := Config.transCmp_of_build hbuild
  have hkept : ∀ v ∈ ranking.sortBestFirst (vs.filter filter.test), v ∈ vs ∧ filter.test v :=
    fun v hv => List.mem_filter.1 (Ranking.mem_sortBestFirst.1 hv)
  refine sortCandidates_eq_ok_iff.2 ⟨filter, ranking, _, _, hbuild, rfl,
    readCandidates_render (fun v hv => valid_of_readCandidates hread v (hkept v hv).1) pretty, ?_⟩
  -- All candidates of the listing have passed the filter, and they have been sorted.
  have hfilter := List.filter_eq_self.2 fun v hv => (hkept v hv).2
  rw [hfilter, (Ranking.bestFirst_sortBestFirst _).sortBestFirst_eq]

/-- Candidates of which one is rejected, and two are of equal rank. -/
theorem sortCandidates_again_ties :
    ∃ out, sortCandidates (fun _ => true)
        ⟨some "QUALITY:RELEASED, QUALITY:TESTED", ["QUALITY:RELEASED"], some "redhat"⟩
        (some ("[[\"1.0.redhat-2\", \x7b\"quality\": [\"tested\"]\x7d], [\"3.0\"], " ++
          "[\"1.0.redhat-2\", \x7b\"quality\": [\"Tested\"]\x7d], " ++
          "[\"1.0.redhat-1\", \x7b\"quality\": [\"released\"]\x7d]]")) .json true = .ok out ∧
      sortCandidates (fun _ => true)
        ⟨some "QUALITY:RELEASED, QUALITY:TESTED", ["QUALITY:RELEASED"], some "redhat"⟩
        (some out) .json true = .ok out := by
  obtain ⟨out, hout⟩ := exists_eq_ok_of_isOk (x := sortCandidates (fun _ => true)
    ⟨some "QUALITY:RELEASED, QUALITY:TESTED", ["QUALITY:RELEASED"], some "redhat"⟩
    (some ("[[\"1.0.redhat-2\", \x7b\"quality\": [\"tested\"]\x7d], [\"3.0\"], " ++
      "[\"1.0.redhat-2\", \x7b\"quality\": [\"Tested\"]\x7d], " ++
      "[\"1.0.redhat-1\", \x7b\"quality\": [\"released\"]\x7d]]")) .json true)
    (by decide +kernel)
  exact ⟨out, hout, sortCandidates_again _ _ _ _ _ hout⟩

end VersionRules
