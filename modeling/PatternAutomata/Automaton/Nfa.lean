import PatternAutomata.Automaton.StateTable
import PatternAutomata.SortedMap
import PatternAutomata.Word

/-!
# Pattern automata — nondeterministic automata

From each state, a symbol leads to a set of states, and one of the symbols, `ε`,
reads nothing. The transitions out of a state are its row: a map from symbols to
the targets, in which no symbol has an empty set of targets.

An automaton that runs two others side by side also remembers for its
transitions which of the two stood still (`Tie`).
-/

namespace PatternAutomata

/-- What a transition of a nondeterministic automaton reads. -/
inductive Symbol where
  | epsilon
  | char (c : Char)
  deriving DecidableEq, Repr

instance : Ranked Symbol where
  rank
    | .epsilon => 0
    | .char c => c.toNat + 1
  rank_injective a b h := by
    cases a <;> cases b
    · rfl
    · cases h
    · cases h
    · exact congrArg Symbol.char (Ranked.rank_injective _ _ (Nat.add_right_cancel h))

def Symbol.text : Symbol → String
  | epsilon => "ε"
  | char c => String.ofList [c]

/-- The letters of a word that the symbol reads. -/
def Symbol.reads : Symbol → List Char
  | epsilon => []
  | char c => [c]

/-- An operand of an interleaving. -/
inductive Side where
  | left
  | right
  deriving DecidableEq, Repr

/-- A step from `source` to `target` that moved one operand of an interleaving only: both
states hold the same state of the other operand, `held`. -/
structure Tie where
  source : Nat
  target : Nat
  held : Side
  deriving DecidableEq, Repr

/-- Raises a number that is taken for a state, one of `count` that there are. The number of a
state stays one, but any other number comes from outside and has to stay a word. -/
def raiseNumber (count offset s : Nat) : Except Fault Nat :=
  if s < count then .ok (s + offset) else addWords s offset

/-- Raises both numbers of a tie. -/
def Tie.shift (count offset : Nat) (t : Tie) : Except Fault Tie := do
  return { t with
    source := ← raiseNumber count offset t.source
    target := ← raiseNumber count offset t.target }

/-- A nondeterministic automaton: its states, the row of transitions of each, and the ties
that were recorded, in the order in which they were recorded. Nothing here says that there
is a row for every state; that the operations keep it so is proved of them. -/
structure Nfa extends StateTable where
  rows : Array (SortedMap Symbol (SortedSet Nat)) := #[]
  ties : Array Tie := #[]
  deriving DecidableEq

namespace Nfa

/-- The transitions out of `s`. -/
def row (n : Nfa) (s : Nat) : Except Fault (SortedMap Symbol (SortedSet Nat)) :=
  (n.rows[s]?).elim (.error .outOfRange) .ok

/-- The state with this label, which is a new one if the label is not in use. -/
def addState (n : Nfa) (label : String) : Nfa × Nat :=
  match h : n.find? label with
  | some s => (n, s)
  | none =>
    let s := n.stateCount
    ({ n with toStateTable := n.push label h, rows := n.rows.push ∅ }, s)

def setStart (n : Nfa) (s : Nat) : Except Fault Nfa := do
  return { n with toStateTable := ← n.toStateTable.setStart s }

def addFinal (n : Nfa) (s : Nat) : Except Fault Nfa := do
  return { n with toStateTable := ← n.toStateTable.addFinal s }

def removeFinal (n : Nfa) (s : Nat) : Nfa :=
  { n with toStateTable := n.toStateTable.removeFinal s }

def clearFinals (n : Nfa) : Nfa :=
  { n with toStateTable := n.toStateTable.clearFinals }

def addSymbol (n : Nfa) (c : Char) : Nfa :=
  { n with toStateTable := n.toStateTable.addSymbol c }

-- ---------------------------------------------------------------------------
-- Rows
-- ---------------------------------------------------------------------------

/-- What a row leads to on `a`. -/
def rowTargets (row : SortedMap Symbol (SortedSet Nat)) (a : Symbol) : SortedSet Nat :=
  (row.find? a).getD ∅

def insertTarget (row : SortedMap Symbol (SortedSet Nat)) (a : Symbol) (t : Nat) :
    SortedMap Symbol (SortedSet Nat) :=
  row.insert a ((rowTargets row a).insert t)

/-- A symbol that is left without targets is left out of the row. -/
def eraseTarget (row : SortedMap Symbol (SortedSet Nat)) (a : Symbol) (t : Nat) :
    SortedMap Symbol (SortedSet Nat) :=
  let targets := (rowTargets row a).erase t
  if targets.isEmpty then row.erase a else row.insert a targets

/-- The transitions of a row one by one, by symbol and then by target. `ε` is the first
symbol. -/
def rowMoves (row : SortedMap Symbol (SortedSet Nat)) : List (Symbol × Nat) :=
  row.entries.flatMap fun (a, targets) => targets.toList.map (a, ·)

-- ---------------------------------------------------------------------------
-- Transitions
-- ---------------------------------------------------------------------------

/-- The alphabet with the symbol of a transition; `ε` is in none. -/
def noteSymbol (alphabet : SortedSet Char) : Symbol → SortedSet Char
  | .epsilon => alphabet
  | .char c => alphabet.insert c

/-- Adds a transition and notes its symbol in the alphabet. The target is looked at before
the source, so a transition between two states that do not exist is refused for its
target. -/
def addTransition (n : Nfa) (source : Nat) (a : Symbol) (target : Nat) : Except Fault Nfa :=
  if n.rows.size ≤ target then .error (.unknownTarget target)
  else do
    let row ← n.row source
    return { n with
      alphabet := noteSymbol n.alphabet a
      rows := n.rows.setIfInBounds source (insertTarget row a target) }

/-- Takes a transition out, if it is there, and says whether it was. Its symbol stays in
the alphabet. -/
def deleteTransition (n : Nfa) (source : Nat) (a : Symbol) (target : Nat) :
    Except Fault (Nfa × Bool) := do
  let row ← n.row source
  return ({ n with rows := n.rows.setIfInBounds source (eraseTarget row a target) },
    decide (target ∈ rowTargets row a))

/-- The states that `a` leads to from `s`, without any `ε` around it. -/
def targets (n : Nfa) (s : Nat) (a : Symbol) : Except Fault (SortedSet Nat) := do
  return rowTargets (← n.row s) a

def hasTransitionOn (n : Nfa) (s : Nat) (a : Symbol) : Except Fault Bool := do
  return !(← n.targets s a).isEmpty

/-- The transitions out of `s`, by symbol and then by target. -/
def moves (n : Nfa) (s : Nat) : Except Fault (List (Symbol × Nat)) := do
  return rowMoves (← n.row s)

/-- All transitions, by source, symbol and target. -/
def transitions (n : Nfa) : List (Nat × Symbol × Nat) :=
  n.rows.toList.zipIdx.flatMap fun (row, s) => (rowMoves row).map (s, ·)

/-- Remembers a tie. The two numbers are not looked at, so a tie may be recorded between
any two. -/
def recordTie (n : Nfa) (tie : Tie) : Nfa := { n with ties := n.ties.push tie }

/-- Appends the states, transitions and ties of `other`, all numbers raised by the number of
states before them, which is the second answer. The start and the final states of `other` are
left to the caller. -/
def absorb (n other : Nfa) : Except Fault (Nfa × Nat) := do
  let offset := n.stateCount
  let table ← n.toStateTable.absorb other.toStateTable
  let ties ← other.ties.mapM (Tie.shift other.stateCount offset)
  let merged : Nfa := {
    toStateTable := table
    rows := n.rows ++ other.rows.map (·.mapValues (·.shift offset))
    ties := n.ties ++ ties }
  return (merged, offset)

end Nfa

end PatternAutomata
