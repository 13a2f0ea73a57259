import PatternAutomata.Automaton.Printer
import PatternAutomata.ParseTree.Printer
import PatternAutomata.TestFile
import PatternAutomata.Text.Decimal

/-!
# Pattern automata — the command line

    tree PATTERN          prints the parse tree and its positions
    nfa  PATTERN          describes the Thompson automaton
    dfa  PATTERN          describes the direct automaton
    run  PATTERN WORDS... runs both on the words
    test FILE             runs the tests of a file

All commands take `--parallel` and `--max-depth=N`; `nfa` and `dfa` take
`-o FILE`. What a command does is a `Plan`: at most one file is touched, and the
plan says what happens once it is known how that went.
-/

namespace PatternAutomata

/-- How patterns are to be read, as given. -/
structure ReadingFlags where
  parallel : Bool := false
  maxDepth? : Option String := none
  deriving DecidableEq, Repr

/-- What the program can be told to do. Without any arguments it does nothing. -/
inductive Command where
  | nothing
  | tree (flags : ReadingFlags) (pattern : String)
  | nfa (flags : ReadingFlags) (pattern : String) (output? : Option String)
  | dfa (flags : ReadingFlags) (pattern : String) (output? : Option String)
  | run (flags : ReadingFlags) (pattern : String) (words : List String)
  | test (flags : ReadingFlags) (file : String)
  deriving DecidableEq, Repr

namespace ReadingFlags

/-- The nesting depth has to be a number, whether it is used or not. -/
def options (flags : ReadingFlags) : Except CommandError Options :=
  let dialect := if flags.parallel then .parallel else .plain
  match flags.maxDepth? with
  | none => .ok { dialect := dialect }
  | some text =>
    match Text.word? text.toList with
    | some depth => .ok { dialect := dialect, maxDepth := depth }
    | none => .error (.badDepth text)

/-- The parse tree of a pattern read under these flags. -/
def compile (flags : ReadingFlags) (pattern : String) : Except CommandError ParseTree := do
  let o ← flags.options
  let t ← PatternAutomata.compile o pattern
  return t

end ReadingFlags

/-- What a command comes down to. -/
inductive Plan where
  | done (t : Transcript)
  /-- Write a text to a file. -/
  | write (path contents : String)
  /-- Read a test file and run its tests. -/
  | check (path : String) (o : Options)

namespace Plan

/-- What is printed once the file was written, or could not be opened. -/
def afterWrite (path : String) : Except OpenError Unit → Transcript
  | .ok () => {}
  | .error why => .fail (.cannotOpen path why)

/-- What went wrong with the contents of a file is said with its name. -/
def inFile (path : String) (t : Transcript) : Transcript :=
  { t with result := t.result.mapError (.inFile path) }

/-- What is printed once the test file was read, or could not be opened. -/
def afterRead (path : String) (o : Options) : Except OpenError ByteArray → Transcript
  | .error why => .fail (.cannotOpen path why)
  | .ok bytes =>
    match String.fromUTF8? bytes with
    | none => .fail .notUtf8
    | some text => inFile path (TestFile.check o text)

end Plan

namespace Command

/-- The positions that can come after each position, a line each. -/
def followLines (t : ParseTree) (f : FollowTable) : Except Fault String := do
  let lines ← (List.range' 1 t.endPosition).mapM fun p => do
    let letter ← t.letterAt p
    let nexts ← f.get p
    return s!"    {p} ({letter.text}): {positionsLabel nexts}\n"
  return "followpos:\n" ++ String.join lines

/-- All that there is to print of a tree: the tree itself, the positions at its two ends,
and those after each position, unless it interleaves. -/
def treeText (t : ParseTree) : Except Fault String := do
  let annotations ← Annotations.ofTree t
  let first ← annotations.first t.root
  let last ← annotations.last t.root
  let follow ←
    if t.hasShuffle then pure "No followpos across an interleave.\n"
    else do followLines t (← FollowTable.ofTree t annotations)
  return s!"{t.text}\nfirstpos: {positionsLabel first}\nlastpos: {positionsLabel last}\n{follow}"

/-- What the two automata say about a word. -/
def wordLine (n : Nfa) (d : Dfa) (word : String) : Except Fault String := do
  let v ← TestFile.Verdicts.ofWord n d word
  return s!"    {Text.quoted word}: {TestFile.verdictText v.thompson} (thompson), " ++
    s!"{TestFile.verdictText v.direct} (direct)\n"

def runText (t : ParseTree) (words : List String) : Except Fault String := do
  let n ← t.thompson
  let d ← t.direct
  return String.join (← words.mapM (wordLine n d))

/-- Prints a text. -/
def print (text : Except CommandError String) : Plan :=
  .done (.bind text fun s => { output := s })

/-- Prints a description, or writes it to a file. -/
def describe (description : Except CommandError String) : Option String → Plan
  | none => print description
  | some path =>
    match description with
    | .ok contents => .write path contents
    | .error e => .done (.fail e)

/-- What a command comes down to. Files are only named here; nothing is read or written. -/
def plan : Command → Plan
  | nothing => .done {}
  | tree flags pattern => print do
    let t ← flags.compile pattern
    let text ← treeText t
    return text
  | nfa flags pattern output? => describe (do
    let t ← flags.compile pattern
    let n ← t.thompson
    let text ← n.describe
    return text) output?
  | dfa flags pattern output? => describe (do
    let t ← flags.compile pattern
    let d ← t.direct
    let text ← d.describe
    return text) output?
  | run flags pattern words => print do
    let t ← flags.compile pattern
    let text ← runText t words
    return text
  | test flags file =>
    match flags.options with
    | .ok o => .check file o
    | .error e => .done (.fail e)

end Command

-- ---------------------------------------------------------------------------
-- Arguments
-- ---------------------------------------------------------------------------

/-- Arguments sorted into flags and the rest. -/
structure Arguments where
  flags : ReadingFlags := {}
  output? : Option String := none
  operands : List String := []
  deriving DecidableEq, Repr

namespace Arguments

/-- The value given with `name=`, without any further `=` before it. -/
def valueAfter? (name arg : String) : Option String :=
  let (front, back) := arg.toList.span (· ≠ '=')
  if front = name.toList ∧ !back.isEmpty then
    some (String.ofList (back.dropWhile (· = '=')))
  else none

/-- Sorts the arguments after the name of the command. After `--` all are operands. -/
def parse (a : Arguments) : List String → Option Arguments
  | [] => some a
  | "--" :: rest => some { a with operands := a.operands ++ rest }
  | "-p" :: rest | "--parallel" :: rest =>
    parse { a with flags := { a.flags with parallel := true } } rest
  | "-o" :: path :: rest => parse { a with output? := some path } rest
  | "--max-depth" :: depth :: rest =>
    parse { a with flags := { a.flags with maxDepth? := some depth } } rest
  | arg :: rest =>
    match valueAfter? "--max-depth" arg with
    | some depth => parse { a with flags := { a.flags with maxDepth? := some depth } } rest
    | none =>
      if arg.startsWith "-" && arg ≠ "-" then none
      else parse { a with operands := a.operands ++ [arg] } rest

end Arguments

/-- The command that a list of arguments stands for, if it is one. -/
def Command.ofArguments? : List String → Option Command
  | [] => some .nothing
  | name :: rest => do
    let a ← Arguments.parse {} rest
    match name, a.output?, a.operands with
    | "tree", none, [pattern] => some (.tree a.flags pattern)
    | "nfa", output?, [pattern] => some (.nfa a.flags pattern output?)
    | "dfa", output?, [pattern] => some (.dfa a.flags pattern output?)
    | "run", none, pattern :: words => some (.run a.flags pattern words)
    | "test", none, [file] => some (.test a.flags file)
    | _, _, _ => none

namespace Transcript

/-- The exit code: 1 for a failure. -/
def exitCode (t : Transcript) : Nat :=
  match t.result with
  | .ok _ => 0
  | .error _ => 1

/-- What is printed about a failure. -/
def errorText (t : Transcript) : String :=
  match t.result with
  | .ok _ => ""
  | .error e => s!"Error: {Text.quoted e.message}\n"

end Transcript

end PatternAutomata
