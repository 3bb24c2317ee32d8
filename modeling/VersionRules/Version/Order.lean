/-!
# Orders of version strings

The ordering `SUFFIX-VERSION` of the rule language stands for an order of version strings that is
chosen outside the rules. `greater` means that the first string is the higher version.

## Main definitions

* `StringOrder` — a comparison of version strings
* `StringOrder.natural` — the lexicographic order by code point
-/

namespace VersionRules

/-- A comparison of version strings. -/
abbrev StringOrder : Type :=
  String → String → Ordering

/-- The lexicographic order by code point. -/
def StringOrder.natural : StringOrder :=
  compare

end VersionRules
