import VersionRules.Json.Reader
import VersionRules.Rule.Filter
import VersionRules.Rule.Ranking
import VersionRules.Version.Suffixed

/-!
# Configurations

A configuration is a query for a filter, a list of rank rules, and the rebuild suffix that version
strings are compared by. Each can be absent. A configuration file is a JSON object with these three
under the keys `predicate`, `ranks` and `suffix`, or an array of them in this order.

What stands under any other key is ignored. It has to be well written, but it need not denote
anything: numbers of any size and strings that are no text are passed over.

## Main definitions

* `Config` — the three parts
* `Config.ofText`, `Config.ofBytes` — read a configuration file
* `Config.merge` — a configuration overridden by another one
* `Config.stringOrder`, `Config.filter`, `Config.ranking`, `Config.build` — what it stands for
-/

namespace VersionRules

/-- A query, rank rules and a rebuild suffix. -/
structure Config where
  predicate : Option String
  ranks : List String
  suffix : Option String
  deriving DecidableEq

/-- Why a configuration cannot be used. -/
inductive ConfigError
  /-- the file cannot be read as text -/
  | unreadable
  /-- the file is no JSON, or not of the proper shape -/
  | malformed
  | rule (e : RuleError)
  deriving DecidableEq

/-- The text of a configuration error. -/
def ConfigError.message : ConfigError → String
  | unreadable => "IO error"
  | malformed => "JSON parse error"
  | rule e => "Invalid rule: " ++ e.text

namespace Config

/-- The configuration without any part. -/
def empty : Config :=
  ⟨none, [], none⟩

/-! ### Reading -/

/-- Reads a text. -/
def text? : Json.Written → Option String
  | .string s => Json.Escaped.decode? s
  | _ => none

/-- Reads a text that may be absent, or `null`. -/
def optionalText? : Option Json.Written → Option (Option String)
  | none | some .null => some none
  | some value => (text? value).map some

/-- Reads a list of texts that may be absent, but not `null`. -/
def optionalTexts? : Option Json.Written → Option (List String)
  | none => some []
  | some (.array items) => items.mapM text?
  | some _ => none

/-- Reads the three parts, of which each may be absent. -/
def ofParts? (predicate ranks suffix : Option Json.Written) : Option Config := do
  return ⟨← optionalText? predicate, ← optionalTexts? ranks, ← optionalText? suffix⟩

/-- The value under a key, which may be absent but not repeated. -/
def field? (members : List (String × Json.Written)) (key : String) :
    Option (Option Json.Written) :=
  match members.filter fun entry => entry.1 == key with
  | [] => some none
  | [entry] => some (some entry.2)
  | _ => none

/-- Reads a configuration. -/
def ofJson? : Json.Written → Option Config
  | .object members => do
    let members ← members.mapM fun (key, value) => do
      return (← Json.Escaped.decode? key, value)
    ofParts? (← field? members "predicate") (← field? members "ranks") (← field? members "suffix")
  | .array items => if items.length ≤ 3 then ofParts? items[0]? items[1]? items[2]? else none
  | _ => none

/-- Reads a configuration file. -/
def ofText (text : String) : Except ConfigError Config :=
  match (Json.read? text).bind ofJson? with
  | some config => .ok config
  | none => .error .malformed

/-- Reads the content of a configuration file, which has to be UTF-8. -/
def ofBytes (bytes : ByteArray) : Except ConfigError Config :=
  match String.fromUTF8? bytes with
  | some text => ofText text
  | none => .error .unreadable

/-! ### Use -/

/-- A configuration overridden by the parts that another one has; an empty list of rules overrides
nothing. -/
def merge (c overrides : Config) : Config where
  predicate := overrides.predicate <|> c.predicate
  ranks := if overrides.ranks.isEmpty then c.ranks else overrides.ranks
  suffix := overrides.suffix <|> c.suffix

/-- The order of version strings: that of the rebuild suffix, given which patterns compile, and the
natural one if there is no suffix or if it is empty. -/
def stringOrder (c : Config) (compiles : String → Bool) : StringOrder :=
  match c.suffix with
  | some suffix => if suffix.isEmpty then .natural else SuffixedVersion.order compiles suffix
  | none => .natural

/-- The filter of a configuration. -/
def filter (c : Config) : Except RuleError Filter :=
  Filter.ofQuery c.predicate

/-- The ranking of a configuration. -/
def ranking (c : Config) (compiles : String → Bool) : Except RuleError Ranking :=
  Ranking.ofRules (c.stringOrder compiles) c.ranks

/-- The filter and the ranking of a configuration. -/
def build (c : Config) (compiles : String → Bool) : Except RuleError (Filter × Ranking) := do
  return (← c.filter, ← c.ranking compiles)

end Config

end VersionRules
