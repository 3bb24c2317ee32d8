import VersionRules.Command.Error

/-!
# Documentation of the rule language

## Main definitions

* `Help.overview` — the list of categories
* `Help.Category`, `Help.Category.ofName?` — the categories and their names
* `Help.ofName` — the text on a category
-/

namespace VersionRules.Help

/-- A text of several lines. -/
def ofLines (lines : List String) : String :=
  String.join (lines.map (· ++ "\n"))

/-- The list of categories, and a short reference. -/
def overview : String :=
  ofLines [
    "RANK DOCUMENTATION",
    "",
    "Rank is a small rule language for choosing between candidate versions of an",
    "artifact. A predicate filters the candidates, then an ordered list of rank",
    "rules sorts the survivors so the preferred version comes first.",
    "",
    "DOCUMENTATION CATEGORIES",
    "",
    "  predicate         Filters: qualifiers joined by ','",
    "  ranking           Rank rules: AND, OR, parentheses, SORT_BY, SUFFIX-VERSION",
    "  qualifiers        Qualifier names, word counts and accepted values",
    "  errors            Validation messages and what causes them",
    "",
    "QUICK REFERENCE",
    "",
    "  BUILD:42                    Qualifier with a one word value",
    "  VERSION:'EAP 7.4'           Quoted value of a two word qualifier",
    "  A, B                        A or B (predicates only)",
    "  A AND B | A OR B            Logic (rank rules only)",
    "  ( ... )                     Grouping",
    "  A SORT_BY SUFFIX-VERSION    Matching versions first, then by version",
    "  SUFFIX-VERSION              Order by version string",
    "",
    "Run 'rank doc <category>' for detailed documentation."]

/-- On filters. -/
def filters : String :=
  ofLines [
    "PREDICATE - Filtering Versions",
    "",
    "SYNTAX",
    "  QUALIFIER:value[, QUALIFIER:value ...]",
    "    A version passes when it carries at least one of the listed values.",
    "",
    "    Example:",
    "      Predicate: PRODUCT:EAP, PRODUCT:RHSSO",
    "      Keeps:     versions built for EAP or for RHSSO",
    "",
    "ALLOWED TOKENS",
    "  Qualifiers and ','. Logic words, parentheses, SORT_BY and SUFFIX-VERSION",
    "  are not recognized in a predicate and are reported as unrecognized words.",
    "",
    "EMPTY PREDICATE",
    "  Omitting the predicate keeps every version. An empty string is rejected",
    "  with \"Empty rule is not allowed.\"",
    "",
    "Example:",
    "  rank sort --predicate \"BUILD:1, BUILD:2\" --input versions.json"]

/-- On rankings. -/
def rankings : String :=
  ofLines [
    "RANKING - Ordering Versions",
    "",
    "RULE LIST",
    "  Rank rules are consulted in order. The first rule that tells two versions",
    "  apart decides which one is preferred. When the last rule is not",
    "  SUFFIX-VERSION it is appended, so every pair of versions is ordered.",
    "",
    "QUALIFIER RULES",
    "  BUILD:1 AND TYPE:rpm",
    "    Versions matching the condition rank above versions that do not.",
    "",
    "  Precedence, tightest first:",
    "    ( )        grouping",
    "    SORT_BY",
    "    AND",
    "    OR",
    "",
    "    Example:",
    "      QUALITY:RELEASED AND TYPE:jar OR BUILD:7",
    "      means (QUALITY:RELEASED AND TYPE:jar) OR BUILD:7",
    "",
    "SORT_BY",
    "  CONDITION SORT_BY SUFFIX-VERSION",
    "    Matching versions rank first. Among matching versions the higher version",
    "    wins. Versions that do not match are left to the next rule.",
    "",
    "SUFFIX-VERSION",
    "  Orders versions by their version string. With --suffix (or \"suffix\" in the",
    "  config file) versions are compared as MAJOR.MINOR.MICRO.QUALIFIER and then",
    "  by the number after the suffix, so 1.0.0.redhat-00010 beats",
    "  1.0.0.redhat-00002. SUFFIX-VERSION on its own must be the last rule.",
    "",
    "Example:",
    "  rank sort --rank \"QUALITY:RELEASED\" --rank \"TYPE:jar SORT_BY SUFFIX-VERSION\" \\",
    "    --suffix redhat --input versions.json"]

/-- On qualifiers. -/
def qualifiers : String :=
  ofLines [
    "QUALIFIERS",
    "",
    "  NAME            WORDS   VALUE",
    "  PRODUCT         1       product name, e.g. EAP",
    "  VERSION         2       product name and numeric version, e.g. 'EAP 7.4'",
    "  MILESTONE       3       product, version and milestone, e.g. 'EAP 7.4 CR1'",
    "  BUILD           1       alphanumeric build id",
    "  GROUP_BUILD     1       alphanumeric group build id",
    "  GROUP_VERSION   1       group version name, may contain spaces when quoted",
    "  QUALITY         1       NEW, TESTED, VERIFIED, RELEASED, DEPRECATED,",
    "                          BLACKLISTED, DELETED or TEMPORARY (any case)",
    "  TYPE            1       artifact type, e.g. jar or rpm",
    "",
    "NAMES",
    "  Qualifier names ignore case and accept '-' for '_': group-build works.",
    "",
    "VALUES",
    "  Multi word values are written quoted: VERSION:'EAP 7.4' or",
    "  VERSION:\"EAP 7.4\". Unquoted, the words are read one after another:",
    "  VERSION:EAP 7.4.",
    "",
    "INPUT FORMAT",
    "  The sort command reads a JSON array:",
    "    [\x7b\"version\": \"1.0.0\", \"qualifiers\": \x7b\"VERSION\": [\"EAP 7.4\"]\x7d\x7d]"]

/-- On errors. -/
def errors : String :=
  ofLines [
    "ERRORS",
    "",
    "Validation errors name the offending token and its character span:",
    "",
    "  Encountered problem with and (chars 8:11). Message: end of rule is not allowed after 'and'.",
    "",
    "COMMON MESSAGES",
    "  Unrecognized word 'X'.",
    "    The word is not a qualifier, or is not allowed in this kind of rule.",
    "",
    "  Character ',' is not allowed.",
    "    Rank rules can't contain ','. Use OR.",
    "",
    "  'X' is not allowed after 'Y'.",
    "    Two tokens can't be adjacent, e.g. two qualifiers without AND/OR.",
    "",
    "  A rule can't start with X.",
    "    Rules start with a qualifier, '(' or SUFFIX-VERSION.",
    "",
    "  Amount of parentheses do not match. Expecting another N.",
    "    A '(' was never closed.",
    "",
    "  Illegal ')' placement.",
    "    A ')' closes nothing.",
    "",
    "  SUFFIX-VERSION is not the last rank.",
    "    A bare SUFFIX-VERSION rule orders every pair, so no rule may follow it.",
    "",
    "  Qualifier X requires N word/s.",
    "    An unquoted value ran out of words."]

/-- The parts of the documentation. -/
inductive Category
  | filters
  | rankings
  | qualifiers
  | errors
  deriving DecidableEq

namespace Category

/-- The category that a name stands for, without regard to case and with `-` for `_`. -/
def ofName? (name : String) : Option Category :=
  match Text.replaceChar '-' '_' (Text.lower name) with
  | "predicate" | "predicates" | "filter" => some filters
  | "ranking" | "ranks" | "rank" | "sort_by" => some rankings
  | "qualifiers" | "qualifier" => some qualifiers
  | "errors" | "error" => some errors
  | _ => none

/-- The text on a category. -/
def text : Category → String
  | filters => Help.filters
  | rankings => Help.rankings
  | qualifiers => Help.qualifiers
  | errors => Help.errors

end Category

/-- The text on the category that a name stands for. -/
def ofName (name : String) : Except CommandError String :=
  match Category.ofName? name with
  | some category => .ok category.text
  | none => .error (.unknownCategory name)

end VersionRules.Help
