import VersionRules.Command.Run

/-!
# The command line

The arguments, the configuration file and the standard input are read, and the outcome of the
command is printed. Tails are searched for without an engine that could refuse a pattern, so every
suffix is taken to have one that compiles.
-/

namespace VersionRules

/-- The content of a file, if it can be read. -/
def readFile? (path : String) : IO (Option ByteArray) := do
  try
    return some (← IO.FS.readBinFile path)
  catch _ =>
    return none

/-- What the standard input holds. -/
def readStandardInput : IO StandardInput := do
  let stdin ← IO.getStdin
  if ← stdin.isTty then
    return .terminal
  match String.fromUTF8? (← stdin.readBinToEnd) with
  | some text => return .text text
  | none => return .unreadable

/-- What has to be read from the standard input: nothing, unless candidates are to be sorted that
are not given as an option. -/
def standardInputFor : Invocation → IO StandardInput
  | .sort _ _ none _ _ => readStandardInput
  | _ => return .terminal

/-- The outcome of a command line. -/
def outcome (args : List String) : IO Outcome := do
  match Invocation.ofArguments? args with
  | none => return .usage
  | some invocation =>
    let file ← match invocation.file? with
      | some path => readFile? path
      | none => pure none
    return invocation.run (fun _ => true) file (← standardInputFor invocation)

end VersionRules

/-- Runs a command. -/
def main (args : List String) : IO UInt32 := do
  let outcome ← VersionRules.outcome args
  (← IO.getStdout).putStr outcome.out
  (← IO.getStderr).putStr outcome.err
  return outcome.code.toUInt32
