import TagAsm.Cli.Run

/-!
# The program

The command line on real files, with colours as the environment and the terminal ask for them.
-/

namespace TagAsm.Cli

/-- The reason of a failed access in the words of the operating system. -/
def accessReason : IO.Error → String
  | .noFileOrDirectory _ code details | .permissionDenied _ code details | .inappropriateType _ code details
  | .resourceExhausted _ code details | .invalidArgument _ code details | .alreadyExists _ code details
  | .noSuchThing _ code details | .interrupted _ code details =>
    details ++ " (os error " ++ toString code ++ ")"
  | .otherError code details | .resourceBusy code details | .unsupportedOperation code details
  | .hardwareFault code details | .unsatisfiedConstraints code details | .illegalOperation code details =>
    details ++ " (os error " ++ toString code ++ ")"
  | error => toString error

/-- Runs an access to the file system and keeps the reason if it fails. -/
def attempt {α : Type} (access : IO α) : IO (Except String α) := do
  match ← access.toBaseIO with
  | .ok value => return .ok value
  | .error error => return .error (accessReason error)

/-- A host whose files are those of the operating system. A file that exists but cannot be opened is still a file. -/
def systemHost : Host IO where
  isFile path := do
    match ← (IO.FS.readBinFile path).toBaseIO with
    | .ok _ | .error (.permissionDenied ..) => return true
    | .error _ => return false
  read path := attempt (IO.FS.readBinFile path)
  write path contents := attempt (IO.FS.writeBinFile path contents)

/-- Whether a variable of the environment is set, and to something other than zero. -/
def environmentSwitch (name : String) : IO (Option Bool) := do
  return (← IO.getEnv name).map (· ≠ "0")

/-- Whether to use colours: the environment can force or forbid them, and otherwise the terminal decides. -/
def wantsColor : IO Bool := do
  if (← environmentSwitch "CLICOLOR_FORCE") = some true then
    return true
  if (← environmentSwitch "NO_COLOR").isSome then
    return false
  return (← environmentSwitch "CLICOLOR").getD true && (← (← IO.getStdout).isTty)

end TagAsm.Cli

/-- Runs the command line, writes what it answers, and ends with its code. Arguments that make no sense and faults have codes
of their own. -/
def main (arguments : List String) : IO UInt32 := do
  match ← (TagAsm.Cli.run TagAsm.Cli.systemHost (← TagAsm.Cli.wantsColor) arguments).run with
  | .ok (.ok answer) =>
    IO.print answer.output
    for report in answer.reports do
      IO.eprintln report
    return answer.code.toUInt32
  | .ok (.error error) =>
    IO.eprintln ("error: " ++ error.message)
    return 2
  | .error _ => return 101
