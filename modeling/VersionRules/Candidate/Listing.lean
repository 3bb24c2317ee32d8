import VersionRules.Candidate.Basic
import VersionRules.Json.Printer

/-!
# Listings of candidates

A list of candidates is written as JSON, in the form in which such lists are read, or as a text
with one numbered line for each candidate.

## Main definitions

* `Candidate.toJson` — a candidate as a JSON value
* `Format` — the ways of writing a list, and `Format.ofName?` for their names
* `Format.render` — a list as it is written
-/

namespace VersionRules

namespace Qualifier

/-- All qualifiers in the order of their names. -/
def byName : List Qualifier :=
  [build, groupBuild, groupVersion, milestone, product, quality, type, version]

theorem mem_byName (q : Qualifier) : q ∈ byName := by
  cases q <;> decide

end Qualifier

namespace Candidate

/-- The recorded values of a qualifier as JSON strings, the words of each separated by spaces. -/
def valuesJson (v : Candidate) (q : Qualifier) : Json String :=
  .array ((v.values q).map fun words => .string (" ".intercalate words))

/-- A candidate as a JSON object, with its keys in order. -/
def toJson (v : Candidate) : Json String :=
  let recorded := Qualifier.byName.filter fun q => !(v.values q).isEmpty
  .object [
    ("qualifiers", .object (recorded.map fun q => (q.name, v.valuesJson q))),
    ("version", .string v.version)]

/-- The recorded values in qualifier order, each as the qualifier term that asks for it. -/
def terms (v : Candidate) : List String :=
  v.tags.flatMap fun (q, values) =>
    values.map fun words => q.name ++ ":" ++ " ".intercalate words

/-- The line of a candidate: its number, its version string and its values. -/
def line (v : Candidate) (number : Nat) : String :=
  let heading := toString number ++ ". " ++ v.version
  if v.terms.isEmpty then heading ++ "\n"
  else heading ++ "  " ++ " ".intercalate v.terms ++ "\n"

end Candidate

/-- The JSON array of a list of candidates. -/
def candidatesToJson (vs : List Candidate) : Json String :=
  .array (vs.map Candidate.toJson)

/-- The numbered lines of a list of candidates. -/
def candidatesToText (vs : List Candidate) : String :=
  String.join (vs.zipIdx.map fun (v, i) => v.line (i + 1))

/-- The ways of writing a list of candidates. -/
inductive Format
  | json
  | text
  deriving DecidableEq

namespace Format

/-- The format that a name stands for, without regard to case. -/
def ofName? (name : String) : Option Format :=
  match Text.lower name with
  | "json" => some json
  | "text" => some text
  | _ => none

/-- The message about a name that stands for no format. -/
def unknownMessage (name : String) : String :=
  "Unknown output format: " ++ name

/-- A list of candidates as it is written; only JSON can be spread over several lines. -/
def render (format : Format) (pretty : Bool) (vs : List Candidate) : String :=
  match format with
  | json => if pretty then (candidatesToJson vs).pretty else (candidatesToJson vs).compact
  | text => candidatesToText vs

end Format

end VersionRules
