import PatternAutomata.Fault
import PatternAutomata.Parser

/-!
# Pattern automata — what can go wrong with a command

Everything that makes a command fail, with its wording.
-/

namespace PatternAutomata

/-- Why a file could not be opened. -/
inductive OpenError where
  | notFound
  | isDirectory
  /-- A file on the way to it, where a directory should be. -/
  | notADirectory
  | nameTooLong
  | permissionDenied
  | noDevice
  /-- Another reason, in the words of the operating system. -/
  | other (reason : String)
  deriving DecidableEq, Repr

/-- The wording of the operating system, with its number for the error. -/
def OpenError.message : OpenError → String
  | notFound => "No such file or directory (os error 2)"
  | isDirectory => "Is a directory (os error 21)"
  | notADirectory => "Not a directory (os error 20)"
  | nameTooLong => "File name too long (os error 36)"
  | permissionDenied => "Permission denied (os error 13)"
  | noDevice => "No such device or address (os error 6)"
  | other reason => reason

/-- Why a command failed. Errors of the contents of a file are wrapped with the name of
the file. -/
inductive CommandError where
  /-- The nesting depth given is no number. -/
  | badDepth (text : String)
  | rejected (e : SyntaxError)
  | fault (f : Fault)
  | cannotOpen (path : String) (why : OpenError)
  | notUtf8
  /-- The dialect that a test file asks for is not known. -/
  | unknownHeader (line : String)
  | noPattern
  /-- A line of a test file is no test. -/
  | noTest (line : String)
  | testsFailed (count : Nat)
  /-- What went wrong with the contents of a file. -/
  | inFile (path : String) (e : CommandError)
  deriving DecidableEq, Repr

namespace CommandError

/-- The wording of an error. A fault without a wording of its own is an index out of
range. -/
def message : CommandError → String
  | badDepth text => s!"Invalid nesting depth \"{text}\"."
  | rejected e => e.message
  | fault f => f.message?.getD "An index is out of range."
  | cannotOpen path why => s!"Couldn't open {path} : {why.message}"
  | notUtf8 => "stream did not contain valid UTF-8"
  | unknownHeader line => s!"Unknown dialect header \"{line}\"."
  | noPattern => "No pattern to test."
  | noTest line => s!"Expected \"+word\" or \"-word\", found \"{line}\"."
  | testsFailed count => s!"{count} test(s) failed."
  | inFile path e => s!"{path}: {e.message}"

/-- A pattern that is not read makes the command fail, with the same error. -/
def ofCompileError : CompileError → CommandError
  | .rejected e => rejected e
  | .fault f => fault f

end CommandError

instance : MonadLift (Except Fault) (Except CommandError) where
  monadLift r := r.mapError .fault

instance : MonadLift (Except CompileError) (Except CommandError) where
  monadLift r := r.mapError .ofCompileError

/-- What a command printed, and how it ended. What was printed before a failure stays. -/
structure Transcript where
  output : String := ""
  result : Except CommandError Unit := .ok ()

namespace Transcript

def fail (e : CommandError) : Transcript := { result := .error e }

/-- The same with `text` printed before. -/
def after (text : String) (t : Transcript) : Transcript := { t with output := text ++ t.output }

/-- Goes on with `next` if there is a value, and fails otherwise. -/
def bind {β : Type} (value : Except CommandError β) (next : β → Transcript) : Transcript :=
  match value with
  | .ok v => next v
  | .error e => fail e

end Transcript

end PatternAutomata
