import VersionRules.Candidate.Listing
import VersionRules.Config

/-!
# Command line arguments

A command is followed by options and other arguments. An option has a long name, as in
`--rank RULE` or `--rank=RULE`, and perhaps a letter, as in `-r RULE`, `-rRULE` or `-r=RULE`. A
value that is an argument of its own must not begin with `-`, unless it is `-` itself. Behind `--`
no argument is an option. Options can be repeated only where they form a list.

## Main definitions

* `Arguments.Spec` — the options of a command
* `Arguments.read?` — splits arguments into options with their values and other arguments
* `Invocation` — a command with its options
* `Invocation.ofArguments?` — reads a command line
-/

namespace VersionRules

namespace Arguments

/-- An option of a command. -/
structure Spec where
  name : String
  letter : Option Char
  takesValue : Bool

/-- The options and the other arguments of a command line, in order. -/
structure Split where
  options : List (String × String)
  others : List String

/-- An option in front of others. -/
def Split.withOption (name value : String) (s : Split) : Split :=
  { s with options := (name, value) :: s.options }

/-- Another argument in front of others. -/
def Split.withOther (arg : String) (s : Split) : Split :=
  { s with others := arg :: s.others }

/-- Whether an argument can only be an option: it begins with `-` and goes on. -/
def isOption : List Char → Bool
  | '-' :: _ :: _ => true
  | _ => false

/-- What an argument says when it is read as an option. -/
inductive Parsed
  /-- an option with the value that is attached to it, or without value -/
  | complete (name value : String)
  /-- an option whose value is the next argument -/
  | pending (name : String)

/-- Reads an option by its long name, behind `--`. -/
def long? (specs : List Spec) (body : List Char) : Option Parsed := do
  let name := String.ofList (body.takeWhile (· != '='))
  let spec ← specs.find? fun spec => spec.name == name
  match body.dropWhile (· != '='), spec.takesValue with
  | [], true => return .pending name
  | [], false => return .complete name ""
  | _ :: value, true => return .complete name (String.ofList value)
  | _ :: _, false => none

/-- Reads an option by its letter, with what follows the letter. -/
def short? (specs : List Spec) (letter : Char) (body : List Char) : Option Parsed := do
  let spec ← specs.find? fun spec => spec.letter == some letter
  match body, spec.takesValue with
  | [], true => return .pending spec.name
  | [], false => return .complete spec.name ""
  | '=' :: value, true => return .complete spec.name (String.ofList value)
  | value, true => return .complete spec.name (String.ofList value)
  | _, false => none

/-- Reads an argument that begins with `-` and goes on. -/
def option? (specs : List Spec) : List Char → Option Parsed
  | '-' :: '-' :: body => long? specs body
  | '-' :: letter :: body => short? specs letter body
  | _ => none

/-- Splits arguments into options with their values and other arguments. -/
def read? (specs : List Spec) : List String → Option Split
  | [] => some ⟨[], []⟩
  | arg :: args =>
    if arg = "--" then some ⟨[], args⟩
    else if isOption arg.toList then
      match option? specs arg.toList with
      | none => none
      | some (.complete name value) => (read? specs args).map (.withOption name value)
      | some (.pending name) =>
        match args with
        | [] => none
        | value :: rest =>
          if isOption value.toList then none else (read? specs rest).map (.withOption name value)
    else
      (read? specs args).map (.withOther arg)

namespace Split

/-- The values of an option that can be repeated. -/
def all (s : Split) (name : String) : List String :=
  (s.options.filter fun option => option.1 == name).map Prod.snd

/-- The value of an option that can be given once. -/
def single? (s : Split) (name : String) : Option (Option String) :=
  match s.all name with
  | [] => some none
  | [value] => some (some value)
  | _ => none

end Split

end Arguments

/-- A command with its options. -/
inductive Invocation
  | check (predicate : Option String) (ranks : List String)
  /-- `file` is the path of a configuration file -/
  | sort (file : Option String) (overrides : Config) (input : Option String) (format : Format)
    (pretty : Bool)
  | docs
  | doc (category : String)
  deriving DecidableEq

namespace Invocation

open Arguments

/-- The options of the command `check`. -/
def checkSpecs : List Spec :=
  [⟨"predicate", some 'p', true⟩, ⟨"rank", some 'r', true⟩]

/-- The options of the command `sort`. -/
def sortSpecs : List Spec :=
  [⟨"config", some 'c', true⟩, ⟨"predicate", none, true⟩, ⟨"rank", some 'r', true⟩,
   ⟨"suffix", some 's', true⟩, ⟨"input", some 'i', true⟩, ⟨"pretty", none, false⟩,
   ⟨"format", some 'f', true⟩]

/-- Reads the arguments of the command `check`. -/
def check? (args : List String) : Option Invocation := do
  let s ← Arguments.read? checkSpecs args
  if s.others.isEmpty then return .check (← s.single? "predicate") (s.all "rank") else none

/-- Reads the arguments of the command `sort`. A path is not empty, and the format is JSON unless
it is given. -/
def sort? (args : List String) : Option Invocation := do
  let s ← Arguments.read? sortSpecs args
  let file ← s.single? "config"
  let predicate ← s.single? "predicate"
  let suffix ← s.single? "suffix"
  let input ← s.single? "input"
  let pretty ← s.single? "pretty"
  let format ← Format.ofName? ((← s.single? "format").getD "json")
  if s.others.isEmpty && file != some "" then
    return .sort file ⟨predicate, s.all "rank", suffix⟩ input format pretty.isSome
  else none

/-- Reads the arguments of the command `docs`. -/
def docs? (args : List String) : Option Invocation := do
  let s ← Arguments.read? [] args
  if s.others.isEmpty then return .docs else none

/-- Reads the arguments of the command `doc`. -/
def doc? (args : List String) : Option Invocation := do
  match (← Arguments.read? [] args).others with
  | [category] => return .doc category
  | _ => none

/-- Reads a command line; none is given for a wrong one. -/
def ofArguments? : List String → Option Invocation
  | "check" :: args => check? args
  | "sort" :: args => sort? args
  | "docs" :: args => docs? args
  | "doc" :: args => doc? args
  | _ => none

end Invocation

end VersionRules
