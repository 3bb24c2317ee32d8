import VersionRules.Text.Case

/-!
# Qualifiers

A candidate version is tagged with qualifiers: the product it was built for, the build that made
it, its quality, and so on. A value of a qualifier is a fixed number of words, the qualifier's
arity.

## Main definitions

* `Qualifier` — the eight qualifiers, in the order in which they are listed
* `Qualifier.name`, `Qualifier.ofName?` — the canonical name, and reading it without regard to
  case and with `-` for `_`
* `Qualifier.arity` — the number of words in a value
-/

namespace VersionRules

/-- What a candidate version can be tagged with. -/
inductive Qualifier
  | product
  | version
  | milestone
  | build
  | groupBuild
  | groupVersion
  | quality
  | type
  deriving DecidableEq

namespace Qualifier

/-- All qualifiers, in qualifier order. -/
def all : List Qualifier :=
  [product, version, milestone, build, groupBuild, groupVersion, quality, type]

theorem mem_all (q : Qualifier) : q ∈ all := by
  cases q <;> decide

/-- The canonical name of a qualifier. -/
def name : Qualifier → String
  | product => "PRODUCT"
  | version => "VERSION"
  | milestone => "MILESTONE"
  | build => "BUILD"
  | groupBuild => "GROUP_BUILD"
  | groupVersion => "GROUP_VERSION"
  | quality => "QUALITY"
  | type => "TYPE"

/-- The number of words in a value. -/
def arity : Qualifier → Nat
  | version => 2
  | milestone => 3
  | _ => 1

/-- No value is without words. -/
theorem arity_pos (q : Qualifier) : 0 < q.arity := by
  cases q <;> decide

/-- The qualifier that a word names, without regard to case and with `-` for `_`. -/
def ofName? (word : String) : Option Qualifier :=
  all.find? fun q => q.name == Text.keyword word

/-- The message about a word that names no qualifier. -/
def unknownMessage (word : String) : String :=
  "Unknown qualifier: " ++ word

end Qualifier

end VersionRules
