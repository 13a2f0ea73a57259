import PatternAutomata.CommandError
import PatternAutomata.Direct
import PatternAutomata.Text.Blank

/-!
# Pattern automata — test files

A test file may start with a header, `dialect plain` or `dialect parallel`, which
overrides the dialect that was asked for. Then comes the pattern, and then one
test per line: `+word` for a word that must be accepted, `-word` for one that
must be rejected. Blanks around a line, and blank lines, do not count. A line
whose first word is `dialect` is a header, known or not; a header that is known
holds a blank, so it is no pattern.
-/

namespace PatternAutomata

namespace TestFile

/-- The lines that count, without the blanks around them. -/
def lines (text : String) : List (List Char) :=
  ((Text.lines text.toList).map Text.trim).filter (!·.isEmpty)

/-- The dialect that a line asks for, if it is a header. -/
def header? (line : List Char) : Except CommandError (Option Dialect) :=
  match Text.words line with
  | word :: rest =>
    if word ≠ "dialect".toList then .ok none
    else if rest = ["plain".toList] then .ok (some .plain)
    else if rest = ["parallel".toList] then .ok (some .parallel)
    else .error (.unknownHeader (String.ofList (Text.trim line)))
  | [] => .ok none

/-- The options that hold for the lines after the header, and those lines. -/
def splitHeader (o : Options) (lines : List (List Char)) :
    Except CommandError (Options × List (List Char)) :=
  match lines with
  | [] => .ok (o, [])
  | first :: rest => do
    match ← header? first with
    | some d => return ({ o with dialect := d }, rest)
    | none => return (o, first :: rest)

-- ---------------------------------------------------------------------------
-- Tests
-- ---------------------------------------------------------------------------

/-- A word, and whether it has to be accepted. -/
structure Test where
  expected : Bool
  word : String
  deriving DecidableEq, Repr

/-- The test that a line makes: its first character says what is expected, and all that
follows is the word, blanks within it included. -/
def Test.ofLine? : List Char → Option Test
  | '+' :: word => some { expected := true, word := String.ofList word }
  | '-' :: word => some { expected := false, word := String.ofList word }
  | _ => none

/-- What the two automata say about a word. -/
structure Verdicts where
  thompson : Bool
  direct : Bool
  deriving DecidableEq, Repr

def verdictText (accepted : Bool) : String := if accepted then "accepted" else "rejected"

def Verdicts.ofWord (n : Nfa) (d : Dfa) (word : String) : Except Fault Verdicts := do
  return { thompson := ← n.accepts word, direct := ← d.accepts word }

/-- Is the test passed by both? -/
def Verdicts.meet (v : Verdicts) (expected : Bool) : Bool :=
  v.thompson == expected && v.direct == expected

/-- What is printed for the test with this number. -/
def testText (number : Nat) (t : Test) (v : Verdicts) : String :=
  if v.meet t.expected then s!"    #{number} passed.\n"
  else
    s!"    #{number} failed.\n" ++
      s!"    expected {Text.quoted t.word} to be {verdictText t.expected}, " ++
      s!"thompson: {verdictText v.thompson}, direct: {verdictText v.direct}\n"

/-- Runs the tests of the lines in turn, up to the first line that is none. -/
def runTests (n : Nfa) (d : Dfa) (number failed : Nat) : List (List Char) → Transcript
  | [] => { result := if failed = 0 then .ok () else .error (.testsFailed failed) }
  | line :: rest =>
    match Test.ofLine? line with
    | none => .fail (.noTest (String.ofList line))
    | some t =>
      match Verdicts.ofWord n d t.word with
      | .error f => .fail (.fault f)
      | .ok v =>
        let failed := if v.meet t.expected then failed else failed + 1
        .after (testText number t v) (runTests n d (number + 1) failed rest)

/-- Reads the pattern, and runs the tests after it. -/
def checkPattern (o : Options) (pattern : String) (tests : List (List Char)) : Transcript :=
  let automata : Except CommandError (Nfa × Dfa) := do
    let t ← compile o pattern
    let n ← t.thompson
    let d ← t.direct
    return (n, d)
  .bind automata fun (n, d) =>
    .after s!"Testing {pattern} ({o.dialect.name})\n" (runTests n d 1 0 tests)

/-- Runs the tests of a file. -/
def check (o : Options) (text : String) : Transcript :=
  .bind (splitHeader o (lines text)) fun
    | (_, []) => .fail .noPattern
    | (o, pattern :: tests) => checkPattern o (String.ofList pattern) tests

end TestFile

end PatternAutomata
