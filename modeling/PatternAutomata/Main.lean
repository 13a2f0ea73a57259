import PatternAutomata.CommandLine

/-!
# Pattern automata — the program

Carries a plan out in the file system.
-/

namespace PatternAutomata

/-- The reason for an error of the file system. What tells two reasons of one kind apart
is the number of the error. -/
def OpenError.ofIO : IO.Error → OpenError
  | .noFileOrDirectory .. => .notFound
  | .inappropriateType _ code _ => if code = 20 then .notADirectory else .isDirectory
  | .invalidArgument _ 36 _ => .nameTooLong
  | .permissionDenied _ 13 _ => .permissionDenied
  | .noSuchThing _ 6 _ => .noDevice
  | e => .other (toString e)

/-- Opens a file by `action`. -/
def attempt {β : Type} (action : IO β) : IO (Except OpenError β) := do
  try return .ok (← action)
  catch e => return .error (.ofIO e)

/-- Carries a plan out. All that is decided is decided by the plan; what is left to do
here is to open a file and to hand over how that went. -/
def Plan.runInFileSystem : Plan → IO Transcript
  | .done t => return t
  | .write path contents => do
    return Plan.afterWrite path (← attempt (IO.FS.writeFile path contents))
  | .check path o => do return Plan.afterRead path o (← attempt (IO.FS.readBinFile path))

/-- What is printed if the arguments make no command. -/
def usage : String := "usage: tree|nfa|dfa|run|test [--parallel] [--max-depth=N] [-o FILE] -- ...\n"

end PatternAutomata

open PatternAutomata in
/-- Reads the arguments, carries out the command, and answers its exit code. -/
def main (args : List String) : IO UInt32 := do
  match Command.ofArguments? args with
  | none =>
    IO.eprint usage
    return 1
  | some command =>
    let t ← command.plan.runInFileSystem
    IO.print t.output
    IO.eprint t.errorText
    return t.exitCode.toUInt32
