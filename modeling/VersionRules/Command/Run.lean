import VersionRules.Command.Arguments
import VersionRules.Command.Check
import VersionRules.Command.Help
import VersionRules.Command.Sort

/-!
# Running commands

What a command prints is a function of its options, of the content of its configuration file and of
the standard input, and of which patterns compile.

## Main definitions

* `Outcome` — an exit code with what is written to the standard output and the error output
* `StandardInput` — what the standard input holds
* `Invocation.run` — the outcome of a command
-/

namespace VersionRules

/-- An exit code with what is written to the standard output and to the error output. -/
structure Outcome where
  code : Nat
  out : String
  err : String
  deriving DecidableEq

namespace Outcome

/-- A command that succeeds prints a text, and one that fails its error on a line. -/
def ofResult : Except CommandError String → Outcome
  | .ok out => ⟨0, out, ""⟩
  | .error e => ⟨1, "", e.message ++ "\n"⟩

/-- The outcome of a command line that cannot be read. -/
def usage : Outcome :=
  ⟨2, "", "usage: rank check|sort|docs|doc [options]\n"⟩

end Outcome

/-- What the standard input holds. -/
inductive StandardInput
  /-- somebody would have to type it -/
  | terminal
  /-- it is no text -/
  | unreadable
  | text (s : String)
  deriving DecidableEq

/-- The list of candidates to be sorted: the one given as an option, or the standard input. -/
def inputText (option : Option String) (stdin : StandardInput) :
    Except CommandError (Option String) :=
  match option, stdin with
  | some text, _ => .ok (some text)
  | none, .terminal => .ok none
  | none, .unreadable => .error .unreadableInput
  | none, .text text => .ok (some text)

/-- A listing as it is printed: without white space at its end, and with a line feed. -/
def printedListing (listing : String) : String :=
  String.ofList (Text.trimEnd listing.toList) ++ "\n"

namespace Invocation

/-- The path of the configuration file to be read. -/
def file? : Invocation → Option String
  | sort file _ _ _ _ => file
  | _ => none

/-- The outcome of a command, where `file` is the content of its configuration file, if it has one
that can be read, and `compiles` says which suffixes have a pattern that compiles. -/
def run (compiles : String → Bool) (file : Option ByteArray) (stdin : StandardInput) :
    Invocation → Outcome
  | check predicate ranks =>
    .ofResult ((checkRules predicate ranks).mapError .rule |>.map checkReport)
  | sort path overrides input format pretty => .ofResult do
    let config ← match path, file with
      | none, _ => .ok overrides
      | some _, none => .error (.config .unreadable)
      | some _, some bytes =>
        ((Config.ofBytes bytes).mapError .config).map fun config => config.merge overrides
    let listing ← sortCandidates compiles config (← inputText input stdin) format pretty
    return printedListing listing
  | docs => .ofResult (.ok Help.overview)
  | doc category => .ofResult (Help.ofName category)

end Invocation

end VersionRules
