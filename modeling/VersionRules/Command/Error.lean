import VersionRules.Candidate.Document
import VersionRules.Config

/-!
# Errors of commands

## Main definitions

* `CommandError` — why a command fails, and `CommandError.message` for its wording
-/

namespace VersionRules

/-- Why a command fails. -/
inductive CommandError
  | rule (e : RuleError)
  | config (e : ConfigError)
  /-- the list of candidates is no JSON, or not of the proper shape -/
  | malformedInput
  /-- the standard input cannot be read as text -/
  | unreadableInput
  /-- no list of candidates is given -/
  | noInput
  /-- no part of the documentation has this name -/
  | unknownCategory (name : String)
  | badCandidate (e : EntryError)
  deriving DecidableEq

/-- The text of a command error. -/
def CommandError.message : CommandError → String
  | rule e => "Invalid rule: " ++ e.text
  | config e => "Configuration error: " ++ e.message
  | malformedInput => "Invalid JSON"
  | unreadableInput => "IO error"
  | noInput => "No input provided. Use --input or pipe JSON to stdin."
  | unknownCategory name =>
    "Unknown category: '" ++ name ++ "'\nRun 'rank docs' to see available categories."
  | badCandidate e => "Invalid version: " ++ e.message

/-- An error in a document as a command error. -/
def CommandError.ofDocument : DocumentError → CommandError
  | .malformed => malformedInput
  | .entry e => badCandidate e

end VersionRules
