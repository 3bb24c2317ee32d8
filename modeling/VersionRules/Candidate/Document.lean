import VersionRules.Candidate.Basic
import VersionRules.Json.Reader

/-!
# Lists of candidates in JSON

A document lists candidates as a JSON array. Each is an object with a version string and,
optionally, an object of qualifier values: under the name of a qualifier stands an array of texts,
each with the words of one value. An array of the same two things in this order will do as well.

The shape of the whole document is checked before any name or value in it. Names are read without
regard to case, so several keys can name one qualifier; their values are joined in the order of the
keys.

## Main definitions

* `Entry`, `Entry.ofJson?` — a candidate as it stands in a document
* `Entry.candidate` — the candidate, if its names and values are valid
* `readCandidates` — all candidates of a document
-/

namespace VersionRules

namespace Json

/-- The text of a JSON string. -/
def string? : Json String → Option String
  | string s => some s
  | _ => none

/-- The texts of a JSON array of strings. -/
def strings? : Json String → Option (List String)
  | array items => items.mapM string?
  | _ => none

end Json

/-- A candidate as it stands in a document: its version string, and the texts under each key, in
the order of the keys. -/
structure Entry where
  version : String
  tags : List (String × List String)

/-- What can be wrong with a candidate of the proper shape. -/
inductive EntryError
  /-- a key that names no qualifier -/
  | unknownQualifier (name version : String)
  /-- a text that is no value of its qualifier -/
  | badValue (e : Qualifier.ValueError) (version : String)
  deriving DecidableEq

/-- The text of an error in a candidate. -/
def EntryError.message : EntryError → String
  | unknownQualifier name version => "unknown qualifier '" ++ name ++ "' on " ++ version
  | badValue e version => e.message ++ " (" ++ version ++ ")"

namespace Entry

/-- Reads the qualifier values of a candidate. -/
def tags? : Json String → Option (List (String × List String))
  | .object members =>
    (Json.entries members).mapM fun (name, values) => do return (name, ← values.strings?)
  | _ => none

/-- Reads the qualifier values of a candidate, which may be absent. -/
def optionalTags? : Option (Json String) → Option (List (String × List String))
  | some value => tags? value
  | none => some []

/-- Reads a candidate. Of repeated keys the last one counts, and other keys are ignored. -/
def ofJson? : Json String → Option Entry
  | .object members => do
    let members := Json.entries members
    let version ← (← members.lookup "version").string?
    return ⟨version, ← optionalTags? (members.lookup "qualifiers")⟩
  | .array [version] => do return ⟨← version.string?, []⟩
  | .array [version, tags] => do return ⟨← version.string?, ← tags? tags⟩
  | _ => none

/-- Records the texts under one key. -/
def addTag (v : Candidate) (tag : String × List String) : Except EntryError Candidate :=
  match Qualifier.ofName? tag.1 with
  | none => .error (.unknownQualifier tag.1 v.version)
  | some q =>
    tag.2.foldlM (fun v text =>
      let words := q.splitValue text.toList
      match q.validate words with
      | .ok () => .ok (v.add q words)
      | .error e => .error (.badValue e v.version)) v

/-- The candidate, if every key names a qualifier and every text is a value of it. -/
def candidate (e : Entry) : Except EntryError Candidate :=
  e.tags.foldlM addTag (.ofVersion e.version)

end Entry

/-- Why a document gives no candidates. -/
inductive DocumentError
  /-- it is no JSON, or not of the proper shape -/
  | malformed
  | entry (e : EntryError)
  deriving DecidableEq

/-- The candidates that a JSON value lists. -/
def candidatesOfJson (json : Json String) : Except DocumentError (List Candidate) :=
  let entries? : Option (List Entry) := match json with
    | .array items => items.mapM Entry.ofJson?
    | _ => none
  match entries? with
  | none => .error .malformed
  | some entries => (entries.mapM Entry.candidate).mapError .entry

/-- The candidates of a document. -/
def readCandidates (text : String) : Except DocumentError (List Candidate) :=
  match Json.readStrict? text with
  | none => .error .malformed
  | some json => candidatesOfJson json

end VersionRules
