import VersionRules.Candidate.Listing
import VersionRules.Command.Error

/-!
# Sorting candidates

The candidates that a configuration's filter rejects are dropped, and the others are listed with
the preferred ones first. The rules are read before the list of candidates.

## Main definitions

* `sortCandidates` — the listing of a document's candidates under a configuration
-/

namespace VersionRules

/-- The listing of a document's candidates under a configuration, given which suffixes have a
pattern that compiles. -/
def sortCandidates (compiles : String → Bool) (config : Config) (input : Option String)
    (format : Format) (pretty : Bool) : Except CommandError String := do
  let (filter, ranking) ← (config.build compiles).mapError fun e => .config (.rule e)
  match input with
  | none => .error .noInput
  | some text =>
    let candidates ← (readCandidates text).mapError .ofDocument
    return format.render pretty (ranking.sortBestFirst (candidates.filter filter.test))

end VersionRules
